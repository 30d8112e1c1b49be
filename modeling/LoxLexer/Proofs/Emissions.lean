import LoxLexer.Command.Run
/-!
# What a run emits

Of the emissions of a run, those for the output are its texts (`textsOf`), and the others are said on the standard
error.  A scan puts out the texts of its tokens and, where the log is silent, says its diagnostics.

An output that fails has taken some texts before, and of a run it takes those that come first (`textsOf_refused`).
Emissions whose texts there is room for are put out as they are, and then the rest goes on with the room that is left;
behind a text that is not taken nothing is put out (`taken_append_of_le`, `taken_append_of_lt`).
-/
namespace LoxLexer

/-! ## Texts and notices -/

@[simp] theorem textsOf_nil : textsOf [] = [] := rfl

@[simp] theorem textsOf_notice (n : Notice) (es : List Emission) : textsOf (.notice n :: es) = textsOf es := rfl

@[simp] theorem textsOf_output (text : String) (es : List Emission) :
    textsOf (.output text :: es) = text :: textsOf es := rfl

@[simp] theorem textsOf_append (es es' : List Emission) : textsOf (es ++ es') = textsOf es ++ textsOf es' :=
  List.filterMap_append

theorem textsOf_outputs {α : Type} (g : α → String) (l : List α) :
    textsOf (l.map fun a => .output (g a)) = l.map g := by
  rw [textsOf, List.filterMap_map, ← List.filterMap_eq_map]
  rfl

theorem textsOf_notices {α : Type} (g : α → Notice) (l : List α) : textsOf (l.map fun a => .notice (g a)) = [] := by
  rw [textsOf, List.filterMap_map]
  exact List.filterMap_eq_nil_iff.2 (fun _ _ => rfl)

theorem notices_outputs {α : Type} (g : α → String) (l : List α) :
    (l.map fun a => Emission.output (g a)).filterMap Emission.notice? = [] := by
  rw [List.filterMap_map]
  exact List.filterMap_eq_nil_iff.2 (fun _ _ => rfl)

theorem notices_notices {α : Type} (g : α → Notice) (l : List α) :
    (l.map fun a => Emission.notice (g a)).filterMap Emission.notice? = l.map g := by
  rw [List.filterMap_map, ← List.filterMap_eq_map]
  rfl

/-- What a run says on the standard error. -/
def RunReport.errorText (r : RunReport) : String := String.join (r.notices.map fun n => n.text ++ "\n")

theorem LogFilter.textsOf_emissions (f : LogFilter) (entries : List LogEntry) : textsOf (f.emissions entries) = [] :=
  textsOf_notices Notice.log _

theorem LogFilter.emissions_of_silent {f : LogFilter} (h : ∀ e, f.shows e = false) (entries : List LogEntry) :
    f.emissions entries = [] := by
  rw [LogFilter.emissions, List.filter_eq_nil_iff.2 (fun e _ => by simp [h e]), List.map_nil]

namespace Scan

variable (s : Scan) {f : LogFilter}

theorem textsOf_emissions : textsOf (s.emissions f) = s.tokens.map fun t => t.text ++ "\n" := by
  rw [emissions, textsOf_append, textsOf_append, f.textsOf_emissions, textsOf_outputs, textsOf_notices,
    List.nil_append, List.append_nil]

theorem emissions_of_silent (h : ∀ e, f.shows e = false) :
    s.emissions f = (s.tokens.map fun t => .output (t.text ++ "\n")) ++ s.diagnostics.map fun d =>
      .notice (.diagnostic d) := by
  rw [emissions, LogFilter.emissions_of_silent h, List.nil_append]

theorem notices_emissions (h : ∀ e, f.shows e = false) :
    (s.emissions f).filterMap Emission.notice? = s.diagnostics.map .diagnostic := by
  rw [emissions_of_silent s h, List.filterMap_append, notices_outputs, notices_notices, List.nil_append]

end Scan

/-! ## Outputs that fail -/

/-- What is put out has the first texts, as many as there is room for. -/
theorem textsOf_taken (room : Nat) (es : List Emission) : textsOf (taken room es) = (textsOf es).take room := by
  fun_induction taken room es with
  | case1 room => rw [textsOf_nil, List.take_nil]
  | case2 room n rest ih => exact ih
  | case3 text rest => rw [List.take_zero, textsOf_nil]
  | case4 room text rest ih => rw [textsOf_output, textsOf_output, List.take_succ_cons, ih]

theorem taken_outputs {α : Type} (g : α → String) (room : Nat) (l : List α) :
    taken room (l.map fun a => .output (g a)) = (l.take room).map fun a => .output (g a) := by
  induction l generalizing room with
  | nil => rw [List.take_nil, List.map_nil, taken]
  | cons a l ih =>
    cases room with
    | zero => rfl
    | succ room => rw [List.map_cons, taken, ih, List.take_succ_cons, List.map_cons]

variable {room : Nat} {es : List Emission}

theorem taken_append_of_le (h : (textsOf es).length ≤ room) (rest : List Emission) :
    taken room (es ++ rest) = es ++ taken (room - (textsOf es).length) rest := by
  fun_induction taken room es with
  | case1 room => rfl
  | case2 room n es ih => rw [List.cons_append, taken, ih h, textsOf_notice, List.cons_append]
  | case3 text es => simp at h
  | case4 room text es ih =>
    rw [textsOf_output, List.length_cons] at h ⊢
    rw [List.cons_append, taken, ih (Nat.le_of_succ_le_succ h), Nat.succ_sub_succ, List.cons_append]

theorem taken_append_of_lt (h : room < (textsOf es).length) (rest : List Emission) :
    taken room (es ++ rest) = taken room es := by
  fun_induction taken room es with
  | case1 room => simp at h
  | case2 room n es ih => rw [List.cons_append, taken, ih h]
  | case3 text es => rfl
  | case4 room text es ih =>
    rw [textsOf_output, List.length_cons] at h
    rw [List.cons_append, taken, ih (Nat.lt_of_succ_lt_succ h)]

theorem taken_of_le (h : (textsOf es).length ≤ room) : taken room es = es := by
  have := taken_append_of_le h []
  rwa [List.append_nil, taken, List.append_nil] at this

section

variable {p : Emission → Bool} (h : ∀ text, p (.output text) = true)

include h

theorem textsOf_filter (es : List Emission) : textsOf (es.filter p) = textsOf es := by
  rw [textsOf, textsOf, List.filterMap_filter]
  refine congrArg (List.filterMap · es) (funext fun e => ?_)
  cases e with
  | output text => rw [if_pos (h text)]
  | notice n => exact ite_self _

/-- Notices take no room, so it does not matter whether some are taken away before or after. -/
theorem taken_filter (room : Nat) (es : List Emission) : taken room (es.filter p) = (taken room es).filter p := by
  fun_induction taken room es with
  | case1 room => rw [List.filter_nil, taken]
  | case2 room n rest ih =>
    by_cases hn : p (.notice n) = true
    · rw [List.filter_cons_of_pos hn, List.filter_cons_of_pos hn, taken, ih]
    · rw [List.filter_cons_of_neg hn, List.filter_cons_of_neg hn, ih]
  | case3 text rest => rw [List.filter_cons_of_pos (h text), taken, List.filter_nil]
  | case4 room text rest ih => rw [List.filter_cons_of_pos (h text), List.filter_cons_of_pos (h text), taken, ih]

end

namespace RunReport

variable {r : RunReport} (cause : String)

theorem refused_of_le (h : (textsOf r.emissions).length ≤ room) : r.refused room cause = r := if_pos h

theorem refused_of_lt (h : room < (textsOf r.emissions).length) :
    r.refused room cause = failed (.unwritableOutput cause) (taken room r.emissions) := if_neg (Nat.not_le.2 h)

/-- **An output that fails has the first texts of a run**, as many as it takes. -/
theorem textsOf_refused (r : RunReport) (room : Nat) (cause : String) :
    textsOf (r.refused room cause).emissions = (textsOf r.emissions).take room := by
  by_cases h : (textsOf r.emissions).length ≤ room
  · rw [refused_of_le cause h, List.take_of_length_le h]
  · rw [refused_of_lt cause (Nat.not_le.1 h), failed, textsOf_append, textsOf_taken, textsOf_notice, textsOf_nil,
      List.append_nil]

/-- What comes behind the first text that is not taken does not matter. -/
theorem refused_append_of_lt (code : Nat) (h : room < (textsOf es).length) (rest : List Emission) :
    refused ⟨code, es ++ rest⟩ room cause = failed (.unwritableOutput cause) (taken room es) := by
  have hlt : room < (textsOf (es ++ rest)).length := by
    rw [textsOf_append, List.length_append]
    omega
  rw [refused_of_lt cause hlt, taken_append_of_lt h]

end RunReport

namespace Surroundings

variable (around : Surroundings)

/-- The output takes so many texts of a run. -/
def Takes (n : Nat) : Prop := around.outputFault = none ∨ n ≤ around.outputRoom

instance (n : Nat) : Decidable (around.Takes n) := inferInstanceAs (Decidable (_ ∨ _))

/-- What the output lets through of a run that goes on without it. -/
def through (es : List Emission) : List Emission :=
  around.outputFault.elim es fun _ => taken around.outputRoom es

/-- What becomes of a run where its output is refused if it fails. -/
def outcome (r : RunReport) : RunReport := around.outputFault.elim r (r.refused around.outputRoom)

variable {around}

theorem Takes.mono {k n : Nat} (h : around.Takes n) (hle : k ≤ n) : around.Takes k := h.imp_right (Nat.le_trans hle)

theorem Takes.le_room {n : Nat} {cause : String} (h : around.Takes n) (hfault : around.outputFault = some cause) :
    n ≤ around.outputRoom := h.resolve_left (by simp [hfault])

theorem exists_fault_of_not_takes {n : Nat} (h : ¬ around.Takes n) :
    ∃ cause, around.outputFault = some cause ∧ around.outputRoom < n := by
  obtain ⟨hfault, hroom⟩ := not_or.1 h
  obtain ⟨cause, hcause⟩ := Option.ne_none_iff_exists'.1 hfault
  exact ⟨cause, hcause, Nat.not_le.1 hroom⟩

theorem through_of_takes (h : around.Takes (textsOf es).length) : around.through es = es := by
  unfold through
  cases hfault : around.outputFault with
  | none => rfl
  | some cause => exact taken_of_le (h.le_room hfault)

theorem outcome_of_takes {r : RunReport} (h : around.Takes (textsOf r.emissions).length) : around.outcome r = r := by
  unfold outcome
  cases hfault : around.outputFault with
  | none => rfl
  | some cause => exact RunReport.refused_of_le cause (h.le_room hfault)

end Surroundings

/-! ## Runs as what becomes of a report -/

section

variable {around : Surroundings} {arguments : List String} {options : Options}

theorem run_stop {stop : Stop} (h : readArguments arguments = .error stop) :
    run around arguments = ⟨stop.report.exitCode, around.through stop.report.emissions⟩ := by
  unfold run Surroundings.through
  rw [h]
  cases around.outputFault <;> rfl

variable (h : readArguments arguments = .ok options)

include h

theorem run_options : run around arguments = around.outcome (runOptions around options) := by
  unfold run Surroundings.outcome
  rw [h]
  cases around.outputFault <;> rfl

theorem run_of_output (houtput : around.outputFault = none) : run around arguments = runOptions around options :=
  (run_options h).trans (Surroundings.outcome_of_takes (.inl houtput))

/-- **A failing output has the first texts of a run**, and the run fails if there are more of them. -/
theorem run_of_fault {cause : String} (hfault : around.outputFault = some cause) :
    let whole := runOptions around options
    textsOf (run around arguments).emissions = (textsOf whole.emissions).take around.outputRoom ∧
      (run around arguments).exitCode =
        if (textsOf whole.emissions).length ≤ around.outputRoom then whole.exitCode else 74 := by
  intro whole
  have hrun : run around arguments = whole.refused around.outputRoom cause := by
    rw [run_options h, Surroundings.outcome, hfault]
    rfl
  rw [hrun]
  refine ⟨RunReport.textsOf_refused whole around.outputRoom cause, ?_⟩
  unfold RunReport.refused
  split <;> rfl

end

/-! ## Turns of the prompt -/

section

variable (emitted : Array Emission) (lines : List (Option ByteArray)) {f : LogFilter} {line : Option ByteArray}

theorem toList_push_prompt (t : Turn) :
    (emitted.push prompt ++ t.emissions).toList = emitted.toList ++ prompt :: t.emissions := by
  rw [Array.toList_appendList, Array.toList_push, List.append_assoc, List.singleton_append]

theorem promptFrom_of_some {code : Nat} (h : (turn f (.ok line)).exitCode? = some code) :
    promptFrom f emitted (line :: lines) = ⟨code, emitted.toList ++ prompt :: (turn f (.ok line)).emissions⟩ := by
  rw [promptFrom, h, ← toList_push_prompt]

theorem promptFrom_of_none (h : (turn f (.ok line)).exitCode? = none) :
    promptFrom f emitted (line :: lines) =
      promptFrom f (emitted.push prompt ++ (turn f (.ok line)).emissions) lines := by
  rw [promptFrom, h]

end

end LoxLexer
