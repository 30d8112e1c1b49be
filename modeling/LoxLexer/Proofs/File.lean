import LoxLexer.Proofs.Prompt
import LoxLexer.Proofs.Units
/-!
# Runs over a file

A run with a path can fail in three ways, and they come in a fixed order: the file is no text, the output fails, the
text has lexical errors.  What is read is decoded as a whole before it is scanned, so nothing is put out of a file that
is no text; and the tokens stand before the diagnostics, so no diagnostic is said where the output fails.

Main statement: `run_file`, what a run over a file puts out, what it says and how it ends.
-/
namespace LoxLexer

/-! ## The path of a command line -/

theorem exists_of_bind_eq_ok {ε α β : Type} {x : Except ε α} {f : α → Except ε β} {b : β} (h : x.bind f = .ok b) :
    ∃ a, x = .ok a ∧ f a = .ok b := by
  cases x with
  | error e => cases h
  | ok a => exact ⟨a, rfl, h⟩

namespace Options

/-- Reading leaves the path as it was, or takes one of the arguments for it, as it stands. -/
def TakesPath (arguments : List String) (o o' : Options) : Prop :=
  o'.path = o.path ∨ ∃ path ∈ arguments, path ≠ "" ∧ o'.path = some path

theorem TakesPath.trans {front rest : List String} {o o' o'' : Options} (h : TakesPath front o o')
    (h' : TakesPath rest o' o'') : TakesPath (front ++ rest) o o'' := by
  rcases h' with h' | ⟨path, hmem, hne, h'⟩
  · rcases h with h | ⟨path, hmem, hne, h⟩
    · exact .inl (h'.trans h)
    · exact .inr ⟨path, List.mem_append_left rest hmem, hne, h'.trans h⟩
  · exact .inr ⟨path, List.mem_append_right front hmem, hne, h'⟩

variable {o o' : Options}

theorem path_of_setVerbose (h : o.setVerbose = .ok o') : o'.path = o.path := by
  unfold setVerbose at h
  split at h
  · cases h
  · cases h; rfl

theorem takesPath_setPath {path : String} (h : o.setPath path = .ok o') : TakesPath [path] o o' := by
  unfold setPath at h
  split at h
  · cases h
  · rename_i hpath
    cases h
    refine .inr ⟨path, List.mem_singleton_self path, ?_, rfl⟩
    rintro rfl
    exact hpath rfl

theorem path_of_readLetters {letters : List Char} (h : o.readLetters letters = .ok o') : o'.path = o.path := by
  fun_induction readLetters o letters with
  | case1 o => cases h; rfl
  | case2 o rest ih =>
    obtain ⟨o₁, hverbose, hrest⟩ := exists_of_bind_eq_ok h
    rw [ih o₁ hrest, path_of_setVerbose hverbose]
  | _ => cases h

theorem path_of_readWord {word : String} (h : o.readWord word = .ok o') : o'.path = o.path := by
  unfold readWord at h
  split at h
  · exact path_of_setVerbose h
  all_goals cases h

/-- **What one argument does to the path.** -/
theorem takesPath_readArgument {argument : String} (h : o.readArgument argument = .ok o') :
    TakesPath [argument] o o' := by
  unfold readArgument at h
  split at h
  · exact .inl (path_of_readWord h)
  · exact .inl (path_of_readLetters h)
  · exact takesPath_setPath h

theorem takesPath_foldlM : ∀ {o : Options} {paths : List String}, paths.foldlM setPath o = .ok o' →
    TakesPath paths o o'
  | o, [], h => by cases h; exact .inl rfl
  | o, path :: paths, h => by
    rw [List.foldlM_cons] at h
    obtain ⟨o₁, hpath, hrest⟩ := exists_of_bind_eq_ok h
    exact (takesPath_setPath hpath).trans (takesPath_foldlM hrest)

/-- **What a command line does to the path**, argument by argument. -/
theorem takesPath_readAll {arguments : List String} (h : o.readAll arguments = .ok o') : TakesPath arguments o o' := by
  fun_induction readAll o arguments with
  | case1 o => cases h; exact .inl rfl
  | case2 o paths =>
    have hseparator : TakesPath ["--"] o o := .inl rfl
    exact hseparator.trans (takesPath_foldlM h)
  | case3 o argument rest _ ih =>
    obtain ⟨o₁, hargument, hrest⟩ := exists_of_bind_eq_ok h
    exact (takesPath_readArgument hargument).trans (ih o₁ hrest)

end Options

/-- The path of a command line that is accepted is one of its arguments, and not an empty one. -/
theorem path_of_readArguments {arguments : List String} {options : Options} {path : String}
    (h : readArguments arguments = .ok options) (hpath : options.path = some path) : path ∈ arguments ∧ path ≠ "" := by
  rcases Options.takesPath_readAll h with hsame | ⟨other, hmem, hne, hother⟩
  · rw [hpath] at hsame
    cases hsame
  · obtain rfl : path = other := Option.some.inj (hpath.symm.trans hother)
    exact ⟨hmem, hne⟩

/-! ## What a file comes to -/

section

variable {f : LogFilter} {path : String} {contents : Except String ByteArray}

theorem runFile_of_not_text (h : ∀ bytes, contents = .ok bytes → ¬ bytes.IsValidUTF8) :
    ∃ cause, runFile f path contents =
      .failed (.unreadableFile path cause) (f.emissions [.scanningFile path]) := by
  unfold runFile
  cases contents with
  | error cause => exact ⟨cause, rfl⟩
  | ok bytes =>
    obtain ⟨cause, hcause⟩ := decodeText_of_not_valid (h bytes rfl)
    refine ⟨cause, ?_⟩
    have hbind : (Except.ok bytes).bind decodeText = .error cause := hcause
    rw [hbind]

theorem runFile_text (f : LogFilter) (path text : String) :
    runFile f path (.ok text.toUTF8) =
      ⟨if (scan text).hadError then 65 else 0, f.emissions [.scanningFile path] ++ (scan text).emissions f⟩ := by
  have hbind : (Except.ok text.toUTF8).bind decodeText = .ok text := decodeText_toUTF8 text
  unfold runFile
  rw [hbind]
  rfl

end

namespace RunReport

/-- A run that fails once it has put out some texts says why, and nothing else. -/
theorem of_eq_failed {r : RunReport} {failure : Failure} (texts : List String) {line : String}
    (hr : r = failed failure (texts.map .output)) (hline : failure.text ++ "\n" = line) :
    r.output = String.join texts ∧ r.errorText = line ∧ r.exitCode = failure.exitCode := by
  have htexts : textsOf (texts.map .output) = texts := (textsOf_outputs id texts).trans (List.map_id texts)
  have hnotices : (texts.map Emission.output).filterMap Emission.notice? = [] := notices_outputs id texts
  subst hr hline
  refine ⟨?_, ?_, rfl⟩
  · simp [failed, output, htexts]
  · simp [failed, errorText, notices, hnotices, Emission.notice?, Notice.text]

end RunReport

/-- A run over a text, where the log shows nothing. -/
theorem runFile_text_silent {f : LogFilter} (h : ∀ e, f.shows e = false) (path text : String) :
    let r := runFile f path (.ok text.toUTF8)
    r.output = String.join ((scan text).tokens.map fun t => t.text ++ "\n") ∧
      r.errorText = String.join ((scan text).diagnostics.map fun d => d.text ++ "\n") ∧
      r.exitCode = if (scan text).diagnostics = [] then 0 else 65 := by
  intro r
  have hr : r = ⟨if (scan text).hadError then 65 else 0, (scan text).emissions f⟩ := by
    show runFile f path _ = _
    rw [runFile_text, LogFilter.emissions_of_silent h, List.nil_append]
  rw [hr]
  refine ⟨?_, ?_, ?_⟩
  · rw [RunReport.output, Scan.textsOf_emissions]
  · rw [RunReport.errorText, RunReport.notices, Scan.notices_emissions _ h, List.map_map]
    rfl
  · unfold Scan.hadError
    cases (scan text).diagnostics <;> rfl

/-- Bytes that can be read are a text, or they are not valid. -/
theorem text_or_not_valid (contents : Except String ByteArray) :
    (∃ text : String, contents = .ok text.toUTF8) ∨ ∀ bytes, contents = .ok bytes → ¬ bytes.IsValidUTF8 := by
  by_cases h : ∃ bytes, contents = .ok bytes ∧ bytes.IsValidUTF8
  · obtain ⟨bytes, rfl, hvalid⟩ := h
    exact .inl ⟨String.fromUTF8 bytes hvalid, rfl⟩
  · exact .inr (fun bytes hbytes hvalid => h ⟨bytes, hbytes, hvalid⟩)

/-! ## What a run with a path comes to -/

section

variable {around : Surroundings} {arguments : List String} {options : Options} {path : String}
  (hread : readArguments arguments = .ok options) (hpath : options.path = some path)

include hread hpath

theorem run_path :
    run around arguments =
      around.outcome (runFile (LogFilter.choose options.verbose around.logSetting) path (around.file path)) := by
  rw [run_options hread, runOptions, hpath]

variable (hsilent : ∀ e, (LogFilter.choose options.verbose around.logSetting).shows e = false)

include hsilent

theorem run_unreadable (hfile : ∀ bytes, around.file path = .ok bytes → ¬ bytes.IsValidUTF8) :
    ∃ cause, run around arguments = .failed (.unreadableFile path cause) [] := by
  obtain ⟨cause, hwhole⟩ := runFile_of_not_text (f := LogFilter.choose options.verbose around.logSetting) hfile
  rw [LogFilter.emissions_of_silent hsilent] at hwhole
  have htakes : around.Takes (textsOf (RunReport.failed (.unreadableFile path cause) []).emissions).length :=
    .inr (Nat.zero_le _)
  exact ⟨cause, by rw [run_path hread hpath, hwhole, Surroundings.outcome_of_takes htakes]⟩

variable {text : String} (hfile : around.file path = .ok text.toUTF8)

include hfile

/-- An output that fails within the tokens has taken the first of them. -/
theorem run_refused (htakes : ¬ around.Takes (scan text).tokens.length) :
    ∃ cause, run around arguments = .failed (.unwritableOutput cause)
      ((((scan text).tokens.take around.outputRoom).map fun t => t.text ++ "\n").map .output) := by
  obtain ⟨cause, hfault, hroom⟩ := Surroundings.exists_fault_of_not_takes htakes
  have htexts : around.outputRoom < (textsOf ((scan text).tokens.map fun t => .output (t.text ++ "\n"))).length := by
    rwa [textsOf_outputs, List.length_map]
  refine ⟨cause, ?_⟩
  rw [run_path hread hpath, hfile, runFile_text, LogFilter.emissions_of_silent hsilent,
    Scan.emissions_of_silent _ hsilent, Surroundings.outcome, hfault, List.map_map]
  exact (RunReport.refused_append_of_lt cause _ htexts _).trans (congrArg (RunReport.failed _) (taken_outputs _ _ _))

theorem run_written (htakes : around.Takes (scan text).tokens.length) :
    (run around arguments).output = String.join ((scan text).tokens.map fun t => t.text ++ "\n") ∧
      (run around arguments).errorText = String.join ((scan text).diagnostics.map fun d => d.text ++ "\n") ∧
      (run around arguments).exitCode = if (scan text).diagnostics = [] then 0 else 65 := by
  have hwhole := runFile_text_silent hsilent path text
  have htexts : around.Takes (textsOf (runFile (LogFilter.choose options.verbose around.logSetting) path
      (.ok text.toUTF8)).emissions).length := by
    rwa [runFile_text, textsOf_append, LogFilter.textsOf_emissions, Scan.textsOf_emissions, List.nil_append,
      List.length_map]
  rwa [run_path hread hpath, hfile, Surroundings.outcome_of_takes htexts]

end

/-- **A run over a file ends in one of four ways.**  If the file cannot be read or is no text, that is all it says,
whatever the output takes; otherwise, if the output fails before it has taken the text of each token, what it has taken
is put out and that it failed is all that is said, whatever the text is; otherwise the output is the texts of the
tokens, what is said are the diagnostics, and there being any makes the run fail.

Arguments and paths are `String`s here: of a path that is no Unicode text nothing is said. -/
theorem run_file {around : Surroundings} {arguments : List String} {options : Options} {path : String}
    (hread : readArguments arguments = .ok options) (hpath : options.path = some path)
    (hsilent : LogFilter.Selects options.verbose around.logSetting ⟨false, none⟩) :
    let r := run around arguments
    (path ∈ arguments ∧ path ≠ "") ∧
    ((∀ bytes, around.file path = .ok bytes → ¬ bytes.IsValidUTF8) →
      r.output = "" ∧ r.errorText = "Could not read file '" ++ path ++ "'.\n" ∧ r.exitCode = 74) ∧
    (∀ text : String, around.file path = .ok text.toUTF8 →
      (around.outputFault ≠ none → around.outputRoom = 0 →
        r.output = "" ∧ r.errorText = "Could not write output.\n" ∧ r.exitCode = 74) ∧
      (around.outputFault ≠ none → around.outputRoom < (scan text).tokens.length →
        r.output = String.join (((scan text).tokens.take around.outputRoom).map fun t => t.text ++ "\n") ∧
        r.errorText = "Could not write output.\n" ∧ r.exitCode = 74) ∧
      (around.outputFault = none ∨ (scan text).tokens.length ≤ around.outputRoom →
        r.output = String.join ((scan text).tokens.map fun t => t.text ++ "\n") ∧
        r.errorText = String.join ((scan text).diagnostics.map fun d => d.text ++ "\n") ∧
        r.exitCode = if (scan text).diagnostics = [] then 0 else 65)) ∧
    (r.exitCode = 65 ↔ ∃ text : String, around.file path = .ok text.toUTF8 ∧
      (around.outputFault = none ∨ (scan text).tokens.length ≤ around.outputRoom) ∧ (scan text).diagnostics ≠ []) := by
  intro r
  have hunreadable : (∀ bytes, around.file path = .ok bytes → ¬ bytes.IsValidUTF8) →
      r.output = "" ∧ r.errorText = "Could not read file '" ++ path ++ "'.\n" ∧ r.exitCode = 74 := by
    intro hfile
    obtain ⟨cause, hr⟩ := run_unreadable hread hpath hsilent.not_shows hfile
    have hline : (Failure.unreadableFile path cause).text ++ "\n" = "Could not read file '" ++ path ++ "'.\n" :=
      String.append_assoc
    exact RunReport.of_eq_failed [] hr hline
  have hrefused : ∀ text : String, around.file path = .ok text.toUTF8 → ¬ around.Takes (scan text).tokens.length →
      r.output = String.join (((scan text).tokens.take around.outputRoom).map fun t => t.text ++ "\n") ∧
        r.errorText = "Could not write output.\n" ∧ r.exitCode = 74 := by
    intro text hfile htakes
    obtain ⟨cause, hr⟩ := run_refused hread hpath hsilent.not_shows hfile htakes
    exact RunReport.of_eq_failed _ hr rfl
  have hwritten : ∀ text : String, around.file path = .ok text.toUTF8 → around.Takes (scan text).tokens.length → _ :=
    fun text hfile htakes => run_written hread hpath hsilent.not_shows hfile htakes
  refine ⟨path_of_readArguments hread hpath, hunreadable, fun text hfile => ⟨fun hfault hroom => ?empty,
    fun hfault hroom => ?some, hwritten text hfile⟩, fun hcode => ?fails, ?errors⟩
  case empty =>
    -- a scan has a last token, so there is always a text that is not taken
    have hpos : 0 < (scan text).tokens.length := by
      rw [tokens_scan, List.length_append]
      exact Nat.succ_pos _
    have hnone := hrefused text hfile (not_or.2 ⟨hfault, by omega⟩)
    rwa [hroom, List.take_zero, List.map_nil, String.join_nil] at hnone
  case some => exact hrefused text hfile (not_or.2 ⟨hfault, Nat.not_le.2 hroom⟩)
  case fails =>
    rcases text_or_not_valid (around.file path) with ⟨text, hfile⟩ | hfile
    · by_cases htakes : around.Takes (scan text).tokens.length
      · refine ⟨text, hfile, htakes, fun hnone => ?_⟩
        have hzero := (hwritten text hfile htakes).2.2
        rw [if_pos hnone] at hzero
        exact absurd (hcode.symm.trans hzero) (by decide)
      · exact absurd (hcode.symm.trans (hrefused text hfile htakes).2.2) (by decide)
    · exact absurd (hcode.symm.trans (hunreadable hfile).2.2) (by decide)
  case errors =>
    rintro ⟨text, hfile, htakes, hsome⟩
    exact (hwritten text hfile htakes).2.2.trans (if_neg hsome)

/-- A file with a string that nothing closes behind six tokens, named like a flag: with an output, with one that takes
nothing, and with one that takes three texts. -/
theorem run_file_open_string :
    let around (fault : Option String) (room : Nat) : Surroundings :=
      ⟨fun path => if path = "-v" then .ok "var s = \"é\" + 1 \"open\n".toUTF8 else .error "", ByteArray.empty,
        some "off", fault, room⟩
    let written := run (around none 0) ["--", "-v"]
    let refused := run (around (some "full") 0) ["--", "-v"]
    let broken := run (around (some "full") 3) ["--", "-v"]
    readArguments ["--", "-v"] = .ok ⟨some "-v", false⟩ ∧ LogFilter.Selects false (some "off") ⟨false, none⟩ ∧
      written.output = "Var var nil\nIdentifier s nil\nEqual = nil\nString \"é\" é\nPlus + nil\n" ++
        "Number 1 1.0\nEof  nil\n" ∧
      written.errorText = "[line 2] Error: Unterminated string.\n" ∧ written.exitCode = 65 ∧
      refused.output = "" ∧ refused.errorText = "Could not write output.\n" ∧ refused.exitCode = 74 ∧
      broken.output = "Var var nil\nIdentifier s nil\nEqual = nil\n" ∧
      broken.errorText = "Could not write output.\n" ∧ broken.exitCode = 74 := by
  intro around written refused broken
  have hread : readArguments ["--", "-v"] = .ok ⟨some "-v", false⟩ := rfl
  have hsilent : LogFilter.Selects false (some "off") ⟨false, none⟩ := .nothing (by decide)
  have hfile := fun fault room => (@run_file (around fault room) _ _ _ hread rfl hsilent).2.2.1 _ rfl
  obtain ⟨houtput, herrors, hcode⟩ := (hfile none 0).2.2 (.inl rfl)
  obtain ⟨hnone, herrors₀, hcode₀⟩ := (hfile (some "full") 0).1 nofun rfl
  obtain ⟨hthree, herrors₃, hcode₃⟩ := (hfile (some "full") 3).2.1 nofun (by decide +kernel)
  exact ⟨hread, hsilent, houtput.trans (by decide +kernel), herrors.trans (by decide +kernel),
    hcode.trans (by decide +kernel), hnone, herrors₀, hcode₀, hthree.trans (by decide +kernel), herrors₃, hcode₃⟩

end LoxLexer
