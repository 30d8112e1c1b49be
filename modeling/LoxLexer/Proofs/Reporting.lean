import LoxLexer.Session
import LoxLexer.Proofs.Units
/-!
# Reporters and sessions

A scan never looks at the state of its reporter, so its tokens are those of a scan on its own, and the reporter gets
the diagnostics of that scan, each once and in order.  A session is the case of the reporter that keeps them: whatever
came before a step, the step adds the same.

Main statement: `scanWith_agrees`.
-/
namespace LoxLexer

section

variable {σ : Type u} (report : Reporter σ)

theorem tokens_scanWith (s : σ) (text : String) : (scanWith report s text).tokens.toList = (scan text).tokens := by
  rw [scanWith_eq, Progress.accept, Array.toList_push, tokens_foldl_step, tokens_scan]
  rfl

theorem reported_scanWith (s : σ) (text : String) :
    (scanWith report s text).reported = (scan text).diagnostics.foldl report s := by
  rw [scanWith_eq, diagnostics_scan]
  exact reported_foldl_step report (outcomesFrom 1 text.toList) ⟨#[], #[], s⟩

end

theorem location_of_mem_diagnostics {text : String} {d : Diagnostic} (h : d ∈ (scan text).diagnostics) :
    d.location = "" := by
  rw [diagnostics_scan] at h
  obtain ⟨o, -, ho⟩ := List.mem_filterMap.1 h
  cases o with
  | error line e =>
    obtain rfl := Option.some.inj ho
    rfl
  | _ => cases ho

/-! ## Sessions -/

namespace SessionStep

/-- What a step adds, taken by itself. -/
def diagnostics : SessionStep → List Diagnostic
  | scan text => (LoxLexer.scan text).diagnostics
  | report d => [d]

/-- The tokens of a step, taken by itself. -/
def tokens? : SessionStep → Option (List Token)
  | scan text => some (LoxLexer.scan text).tokens
  | report _ => none

theorem toList_apply (kept : Array Diagnostic) (step : SessionStep) :
    (step.apply kept).1.toList = kept.toList ++ step.diagnostics := by
  cases step with
  | scan text =>
    rw [apply, reported_scanWith]
    exact foldl_push_toList (LoxLexer.scan text).diagnostics kept
  | report d => exact Array.toList_push

theorem apply_tokens (kept : Array Diagnostic) (step : SessionStep) : (step.apply kept).2 = step.tokens? := by
  cases step with
  | scan text => exact congrArg some (tokens_scanWith _ kept text)
  | report d => rfl

theorem size_apply (kept : Array Diagnostic) (step : SessionStep) :
    (step.apply kept).1.size = kept.size + step.diagnostics.length := by
  rw [← Array.length_toList, toList_apply, List.length_append, Array.length_toList]

end SessionStep

/-- The shared list after some steps. -/
def keptAfter (kept : Array Diagnostic) (steps : List SessionStep) : Array Diagnostic :=
  steps.foldl (fun kept step => (step.apply kept).1) kept

theorem toList_keptAfter : ∀ (kept : Array Diagnostic) (steps : List SessionStep),
    (keptAfter kept steps).toList = kept.toList ++ steps.flatMap SessionStep.diagnostics
  | kept, [] => by rw [keptAfter, List.foldl_nil, List.flatMap_nil, List.append_nil]
  | kept, step :: steps => by
    have ih := toList_keptAfter (step.apply kept).1 steps
    rw [step.toList_apply, List.append_assoc] at ih
    rw [List.flatMap_cons]
    exact ih

theorem sessionFrom_cons (kept : Array Diagnostic) (step : SessionStep) (steps : List SessionStep) :
    sessionFrom kept (step :: steps) =
      ⟨step.diagnostics, (step.apply kept).1.size, step.tokens?⟩ :: sessionFrom (step.apply kept).1 steps := by
  have hadded : (step.apply kept).1.toList.drop kept.size = step.diagnostics := by
    rw [step.toList_apply, List.drop_left' Array.length_toList]
  rw [← hadded, ← step.apply_tokens kept]
  rfl

theorem getElem?_sessionFrom : ∀ (kept : Array Diagnostic) (steps : List SessionStep) (i : Nat),
    (sessionFrom kept steps)[i]? = steps[i]?.map fun step =>
      ⟨step.diagnostics, kept.size + ((steps.take (i + 1)).flatMap SessionStep.diagnostics).length, step.tokens?⟩
  | _, [], _ => rfl
  | kept, step :: steps, i => by
    rw [sessionFrom_cons, List.take_succ_cons, List.flatMap_cons, List.length_append, ← Nat.add_assoc, ← step.size_apply]
    cases i with
    | zero => rfl
    | succ i => exact getElem?_sessionFrom (step.apply kept).1 steps i

/-- **Streaming agrees with scanning at once, and no scan remembers another.**  Under any reporter a scan returns the
same tokens and reports the same diagnostics, with no location.  In a session the shared list only grows, by what each
step adds by itself, and each reply is that of the step by itself. -/
theorem scanWith_agrees :
    (∀ {σ : Type u} (report : Reporter σ) (s : σ) (text : String),
      (scanWith report s text).tokens.toList = (scan text).tokens ∧
      (scanWith report s text).reported =
        (scan text).diagnostics.foldl (fun s d => report s ⟨d.line, "", d.error⟩) s) ∧
    (∀ (kept : Array Diagnostic) (steps : List SessionStep),
      (keptAfter kept steps).toList = kept.toList ++ steps.flatMap SessionStep.diagnostics ∧
      ∀ step : SessionStep,
        (keptAfter kept (steps ++ [step])).toList = (keptAfter kept steps).toList ++ step.diagnostics ∧
        (step.apply (keptAfter kept steps)).2 = step.tokens?) ∧
    ∀ (steps : List SessionStep) (i : Nat),
      (session steps)[i]? = steps[i]?.map fun step =>
        ⟨step.diagnostics, ((steps.take (i + 1)).flatMap SessionStep.diagnostics).length, step.tokens?⟩ := by
  refine ⟨fun report s text => ⟨tokens_scanWith report s text, ?_⟩, fun kept steps => ⟨toList_keptAfter kept steps,
    fun step => ⟨?_, step.apply_tokens _⟩⟩, fun steps i => ?_⟩
  · have hlocations : (scan text).diagnostics.map (fun d => ⟨d.line, "", d.error⟩) = (scan text).diagnostics := by
      refine (List.map_congr_left (fun d hd => ?_)).trans (List.map_id _)
      rw [← location_of_mem_diagnostics hd]
      rfl
    rw [reported_scanWith, ← hlocations, List.foldl_map, hlocations]
  · rw [toList_keptAfter, toList_keptAfter, List.flatMap_append, List.flatMap_singleton, List.append_assoc]
  · have := getElem?_sessionFrom #[] steps i
    rw [session, this]
    simp only [List.size_toArray, List.length_nil, Nat.zero_add]

end LoxLexer
