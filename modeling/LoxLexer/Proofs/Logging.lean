import LoxLexer.Proofs.Emissions
/-!
# What a log setting changes

A log observes a run and a filter selects from the log.  Every run under a filter is the run that shows everything,
with the entries taken away that the filter does not admit (`run_eq_under`); what is put out, what is said besides the
log and how the run ends stay.  Entries are only put between what a run emits, so this is followed through the file,
the lines of the prompt and the output that is refused.

Main statement: `run_logged`, for any two settings of one run.
-/
namespace LoxLexer

/-! ## Settings and what they admit -/

namespace LogFilter

def everything : LogFilter := ⟨false, some .trace⟩

/-- What a filter lets through, by the target and the level that the line of an entry shows. -/
def Admits (f : LogFilter) (e : LogEntry) : Prop :=
  (f.scannerOnly = true → e.target = "lox::scanner") ∧
    (f.level? = some .trace ∨ f.level? = some .debug ∧ e.level = .debug)

instance (f : LogFilter) (e : LogEntry) : Decidable (f.Admits e) := inferInstanceAs (Decidable (_ ∧ _))

theorem shows_iff {f : LogFilter} {e : LogEntry} : f.shows e = true ↔ f.Admits e := by
  obtain ⟨scannerOnly, level?⟩ := f
  unfold shows Admits
  rw [Bool.and_eq_true]
  refine and_congr ?target ?level
  case target => cases e <;> cases scannerOnly <;> simp [LogEntry.target]
  case level => cases e.level <;> rcases level? with _ | _ | _ <;> simp

theorem everything_shows (e : LogEntry) : everything.shows e = true := shows_iff.2 ⟨nofun, .inl rfl⟩

/-- What a log is to show: the setting says it, and without one whether the run is verbose. -/
inductive Selects : Bool → Option String → LogFilter → Prop
  | quiet : Selects false none ⟨false, none⟩
  | verbose : Selects true none ⟨false, some .debug⟩
  | nothing {verbose : Bool} {value : String}
      (h : value ∈ ["", "off", "error", "warn", "info", "lox=off", "lox=error", "lox=warn", "lox=info"]) :
      Selects verbose (some value) ⟨false, none⟩
  | debug {verbose : Bool} {value : String} (h : value ∈ ["debug", "lox=debug"]) :
      Selects verbose (some value) ⟨false, some .debug⟩
  | trace {verbose : Bool} {value : String} (h : value ∈ ["trace", "TRACE", "lox=trace"]) :
      Selects verbose (some value) ⟨false, some .trace⟩
  | scannerDebug {verbose : Bool} : Selects verbose (some "lox::scanner=debug") ⟨true, some .debug⟩
  | scannerTrace {verbose : Bool} : Selects verbose (some "lox::scanner=trace") ⟨true, some .trace⟩

/-- A setting says by itself what is to be shown. -/
theorem Selects.ofSetting? {verbose : Bool} {value : String} {f : LogFilter} (h : Selects verbose (some value) f) :
    ofSetting? value = some f := by
  cases h with
  | nothing h => exact (by decide +kernel : ∀ value ∈ ["", "off", "error", "warn", "info", "lox=off", "lox=error",
      "lox=warn", "lox=info"], LogFilter.ofSetting? value = some ⟨false, none⟩) value h
  | debug h => exact (by decide +kernel : ∀ value ∈ ["debug", "lox=debug"],
      LogFilter.ofSetting? value = some ⟨false, some .debug⟩) value h
  | trace h => exact (by decide +kernel : ∀ value ∈ ["trace", "TRACE", "lox=trace"],
      LogFilter.ofSetting? value = some ⟨false, some .trace⟩) value h
  | scannerDebug => decide +kernel
  | scannerTrace => decide +kernel

theorem Selects.choose_eq {verbose : Bool} {setting : Option String} {f : LogFilter}
    (h : Selects verbose setting f) : choose verbose setting = f := by
  cases setting with
  | none => cases h <;> rfl
  | some value => rw [choose, Option.bind_some, h.ofSetting?, Option.getD_some]

/-- Where nothing is selected, the log shows nothing. -/
theorem Selects.not_shows {verbose : Bool} {setting : Option String} (h : Selects verbose setting ⟨false, none⟩)
    (e : LogEntry) : (choose verbose setting).shows e = false := by
  rw [h.choose_eq]
  exact Bool.and_false _

end LogFilter

/-! ## What a filter leaves -/

def Notice.isLog : Notice → Bool
  | log _ => true
  | _ => false

/-- What is left where of the log only that stays which `f` admits. -/
def Notice.keptBy (f : LogFilter) : Notice → Bool
  | log e => decide (f.Admits e)
  | _ => true

def Emission.keptBy (f : LogFilter) (e : Emission) : Bool := e.notice?.all (Notice.keptBy f)

/-- A run with the entries taken away that `f` does not admit. -/
def RunReport.under (f : LogFilter) (r : RunReport) : RunReport :=
  { r with emissions := r.emissions.filter (Emission.keptBy f) }

theorem LogFilter.emissions_eq (f : LogFilter) (entries : List LogEntry) :
    f.emissions entries = (everything.emissions entries).filter (Emission.keptBy f) := by
  have hall : entries.filter everything.shows = entries := List.filter_eq_self.2 (fun e _ => everything_shows e)
  have hkept : ∀ e : LogEntry, Emission.keptBy f (.notice (.log e)) = f.shows e := fun e =>
    Bool.eq_iff_iff.2 (decide_eq_true_iff.trans LogFilter.shows_iff.symm)
  rw [emissions, emissions, hall, List.filter_map]
  congr 1
  exact List.filter_congr (fun e _ => (hkept e).symm)

theorem Scan.emissions_eq (s : Scan) (f : LogFilter) :
    s.emissions f = (s.emissions LogFilter.everything).filter (Emission.keptBy f) := by
  have hkept : ∀ e ∈ (s.tokens.map fun t => Emission.output (t.text ++ "\n")) ++ s.diagnostics.map fun d =>
      .notice (.diagnostic d), e.keptBy f = true := by
    intro e he
    rcases List.mem_append.1 he with he | he
    · obtain ⟨t, -, rfl⟩ := List.mem_map.1 he
      rfl
    · obtain ⟨d, -, rfl⟩ := List.mem_map.1 he
      rfl
  rw [emissions, emissions, List.append_assoc, List.append_assoc, List.filter_append, ← f.emissions_eq,
    List.filter_eq_self.2 hkept]

/-! ## Runs under a filter -/

namespace RunReport

theorem under_failed (f : LogFilter) (failure : Failure) (emitted : List Emission) :
    (failed failure emitted).under f = failed failure (emitted.filter (Emission.keptBy f)) := by
  rw [failed, under, List.filter_append]
  rfl

end RunReport

theorem runFile_eq_under (f : LogFilter) (path : String) (contents : Except String ByteArray) :
    runFile f path contents = (runFile .everything path contents).under f := by
  unfold runFile
  rw [f.emissions_eq]
  cases contents.bind decodeText with
  | error cause => exact (RunReport.under_failed f _ _).symm
  | ok text =>
    simp only [RunReport.under, List.filter_append, ← Scan.emissions_eq]

/-- A turn under a filter ends the run where the one that shows everything does. -/
theorem turn_eq (f : LogFilter) (line : Except String (Option ByteArray)) :
    turn f line =
      { turn .everything line with emissions := (turn .everything line).emissions.filter (Emission.keptBy f) } := by
  unfold turn
  rcases line.bind (Option.mapM decodeText) with cause | _ | text
  · rfl
  · rfl
  · exact congrArg (Turn.mk · none) (Scan.emissions_eq _ f)

/-- The prompt under a filter takes the turns of the one that shows everything, behind what the filter left so far. -/
theorem promptFrom_eq_under (f : LogFilter) : ∀ {emitted all : Array Emission} (lines : List (Option ByteArray)),
    emitted.toList = all.toList.filter (Emission.keptBy f) →
      promptFrom f emitted lines = (promptFrom .everything all lines).under f
  | emitted, all, [], h => by rw [promptFrom, promptFrom, RunReport.under, h]
  | emitted, all, line :: lines, h => by
    have hemitted : (emitted.push prompt ++ (turn f (.ok line)).emissions).toList =
        (all.push prompt ++ (turn .everything (.ok line)).emissions).toList.filter (Emission.keptBy f) := by
      rw [turn_eq f, toList_push_prompt, toList_push_prompt, List.filter_append, h]
      rfl
    have hcode : (turn f (.ok line)).exitCode? = (turn .everything (.ok line)).exitCode? := by rw [turn_eq f]
    rw [promptFrom, promptFrom, hcode]
    cases (turn .everything (.ok line)).exitCode? with
    | some code => exact congrArg (RunReport.mk code) hemitted
    | none => exact promptFrom_eq_under f lines hemitted

theorem runOptions_eq_under {around : Surroundings} {options : Options} {f : LogFilter}
    (h : LogFilter.Selects options.verbose around.logSetting f) {options' : Options}
    (hpath : options.path = options'.path) :
    runOptions around options = (runOptions { around with logSetting := some "trace" } options').under f := by
  have hall : LogFilter.choose options'.verbose (some "trace") = .everything :=
    (LogFilter.Selects.trace (by decide)).choose_eq
  rw [runOptions, runOptions, h.choose_eq, hall, hpath]
  cases options'.path with
  | some path => exact runFile_eq_under f path _
  | none => exact promptFrom_eq_under f _ rfl

/-- An entry makes no output and hides none, so a refusal comes at the same place. -/
theorem RunReport.under_refused (f : LogFilter) (r : RunReport) (room : Nat) (cause : String) :
    (r.refused room cause).under f = (r.under f).refused room cause := by
  have htexts : textsOf (r.under f).emissions = textsOf r.emissions := textsOf_filter (fun _ => rfl) r.emissions
  have htaken : taken room (r.under f).emissions = (taken room r.emissions).filter (Emission.keptBy f) :=
    taken_filter (fun _ => rfl) room r.emissions
  rw [refused, refused, htexts, htaken]
  split
  · rfl
  · exact RunReport.under_failed f _ _

/-- **A run under a filter is the run that shows everything, with what the filter does not admit taken away.** -/
theorem run_eq_under {around : Surroundings} {arguments arguments' : List String} {options options' : Options}
    {f : LogFilter} (hread : readArguments arguments = .ok options) (hread' : readArguments arguments' = .ok options')
    (hpath : options.path = options'.path) (h : LogFilter.Selects options.verbose around.logSetting f) :
    run around arguments = (run { around with logSetting := some "trace" } arguments').under f := by
  have hoptions := runOptions_eq_under h hpath
  obtain ⟨file, input, setting, fault, room⟩ := around
  rw [run, run, hread, hread']
  cases fault with
  | none => exact hoptions
  | some cause =>
    exact (congrArg (RunReport.refused · room cause) hoptions).trans (RunReport.under_refused f _ room cause).symm

namespace RunReport

variable (f : LogFilter) (r : RunReport)

theorem output_under : (r.under f).output = r.output :=
  congrArg String.join (textsOf_filter (fun _ => rfl) r.emissions)

theorem notices_under : (r.under f).notices = r.notices.filter (Notice.keptBy f) := by
  rw [notices, notices, under, List.filterMap_filter, List.filter_filterMap]
  refine congrArg (List.filterMap · r.emissions) (funext fun e => ?_)
  cases e with
  | output _ => rfl
  | notice n => rfl

end RunReport

/-- **Logging observes and filters select.**  For two settings of one run, the exit code, the output and what is said
besides the log are the same, and what is said is that of the run that shows everything, in its order, without the
entries that target and level exclude.  Where there is a setting, it does not matter whether the run is verbose. -/
theorem run_logged {around : Surroundings} {arguments arguments' : List String} {options options' : Options}
    {setting setting' : Option String} {f f' : LogFilter} (hread : readArguments arguments = .ok options)
    (hread' : readArguments arguments' = .ok options') (hpath : options.path = options'.path)
    (hf : LogFilter.Selects options.verbose setting f) (hf' : LogFilter.Selects options'.verbose setting' f') :
    let r := run { around with logSetting := setting } arguments
    let r' := run { around with logSetting := setting' } arguments'
    let full := run { around with logSetting := some "trace" } arguments
    r.exitCode = r'.exitCode ∧ r.output = r'.output ∧
    r.notices.filter (fun n => !n.isLog) = r'.notices.filter (fun n => !n.isLog) ∧
    r.notices = full.notices.filter (Notice.keptBy f) ∧
    r'.notices = full.notices.filter (Notice.keptBy f') ∧
    (setting.isSome = true → setting = setting' → r = r') := by
  intro r r' full
  have hr : r = full.under f := run_eq_under hread hread rfl hf
  have hr' : r' = full.under f' := run_eq_under hread' hread hpath.symm hf'
  have hnotLog : ∀ (g : LogFilter), (full.under g).notices.filter (fun n => !n.isLog) =
      full.notices.filter fun n => !n.isLog := by
    intro g
    rw [RunReport.notices_under, List.filter_filter]
    refine List.filter_congr (fun n _ => ?_)
    cases n <;> rfl
  rw [hr, hr']
  refine ⟨rfl, ?_, ?_, RunReport.notices_under f full, RunReport.notices_under f' full, ?_⟩
  · rw [RunReport.output_under, RunReport.output_under]
  · rw [hnotLog f, hnotLog f']
  · intro hsome hsetting
    obtain ⟨value, rfl⟩ := Option.isSome_iff_exists.1 hsome
    subst hsetting
    have hff : f = f' := Option.some.inj (hf.ofSetting?.symm.trans hf'.ofSetting?)
    rw [hff]

/-- A file with a bad character: verbose, and with the scanner's entries only. -/
theorem run_logged_bad_character :
    let around : Surroundings := ⟨fun _ => .ok "+@\n".toUTF8, ByteArray.empty, none, none, 0⟩
    let verbose := run around ["-v", "m.lox"]
    let scannerOnly := run { around with logSetting := some "lox::scanner=trace" } ["m.lox"]
    readArguments ["-v", "m.lox"] = .ok ⟨some "m.lox", true⟩ ∧ readArguments ["m.lox"] = .ok ⟨some "m.lox", false⟩ ∧
      verbose.exitCode = 65 ∧ scannerOnly.exitCode = verbose.exitCode ∧
      verbose.notices =
        [.log (.scanningFile "m.lox"), .log (.event (.lexicalError 1 (.unexpectedCharacter '@'))),
         .log (.event (.finished 2 1)), .diagnostic ⟨1, "", .unexpectedCharacter '@'⟩] ∧
      scannerOnly.notices =
        [.log (.event (.token (.operator .plus) "+" 1)), .log (.event (.lexicalError 1 (.unexpectedCharacter '@'))),
         .log (.event (.token .eof "" 2)), .log (.event (.finished 2 1)),
         .diagnostic ⟨1, "", .unexpectedCharacter '@'⟩] := by
  intro around verbose scannerOnly
  have hverbose : readArguments ["-v", "m.lox"] = .ok ⟨some "m.lox", true⟩ := rfl
  have hquiet : readArguments ["m.lox"] = .ok ⟨some "m.lox", false⟩ := rfl
  obtain ⟨hcode, -, -, hnotices, hnotices', -⟩ :=
    @run_logged around _ _ _ _ none _ _ _ hverbose hquiet rfl .verbose .scannerTrace
  exact ⟨hverbose, hquiet, by decide +kernel, hcode.symm, hnotices.trans (by decide +kernel),
    hnotices'.trans (by decide +kernel)⟩

end LoxLexer
