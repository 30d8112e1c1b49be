import LoxLexer.Command.Console
import LoxLexer.Proofs.Emissions
/-!
# The command and its report

A recorder (`recorder`) is a console that keeps a list of what has been put out, and whose output fails where its
surroundings say.  As long as there is room it has what the report has so far (`deliver_recorder_of_takes`); where there
is none it has all that the report of the refused run has, and the run ends (`deliver_recorder_of_not_takes`).  The
turns of a prompt follow each other in this way (`takeTurnsOver_recorder`).

Main statement: `command_recorder`, the command at a recorder does what `run` says.
-/
namespace LoxLexer
namespace Console

/-- Turns for these lines, as far as they come. -/
def takeTurnsOver {m : Type → Type} [Monad m] (takeTurn : m (Except String (Option ByteArray)) → m (Option Nat)) :
    List (Option ByteArray) → m Nat
  | [] => return 0
  | line :: rest => do
    match ← takeTurn (pure (.ok line)) with
    | some code => return code
    | none => takeTurnsOver takeTurn rest

/-- The console of a run with these surroundings; its state is what has been put out. -/
def recorder (around : Surroundings) : Console (StateM (List Emission)) where
  say n := fun emitted => ((), emitted ++ [.notice n])
  put text := fun emitted =>
    if around.Takes ((textsOf emitted).length + 1) then (none, emitted ++ [.output text])
    else (around.outputFault, emitted)
  logSetting := return around.logSetting
  readFile path := return around.file path
  takeTurns takeTurn := takeTurnsOver takeTurn (promptLines around.input)

/-! ## Steps at any console -/

section

variable {m : Type → Type} [Monad m] [LawfulMonad m] (c : Console m)

theorem emit_append : ∀ es es' : List Emission, c.emit (es ++ es') = do
    match ← c.emit es with
    | some cause => return some cause
    | none => c.emit es'
  | [], es' => by simp [emit]
  | .notice n :: es, es' => by simp [emit, emit_append es es']
  | .output text :: es, es' => by
    simp only [List.cons_append, emit, emit_append es es', bind_assoc]
    refine bind_congr fun cause? => ?_
    cases cause? <;> simp

theorem deliver_append (es es' : List Emission) :
    c.deliver (es ++ es') = (do
      match ← c.deliver es with
      | some code => return some code
      | none => c.deliver es') := by
  simp only [deliver, emit_append, bind_assoc]
  refine bind_congr fun cause? => ?_
  cases cause? <;> simp

/-- The prompt and the answer are delivered as one, if the line has been read. -/
theorem takeTurn_pure (f : LogFilter) (line : Except String (Option ByteArray)) :
    c.takeTurn f (pure line) =
      (fun code? => code?.or (turn f line).exitCode?) <$> c.deliver (prompt :: (turn f line).emissions) := by
  have hprompt := c.deliver_append [prompt] (turn f line).emissions
  rw [List.singleton_append] at hprompt
  rw [takeTurn, hprompt, map_bind]
  refine bind_congr fun code? => ?_
  cases code? <;> simp

end

/-! ## Deliveries at a recorder -/

section

variable {around : Surroundings} {emitted : List Emission}

theorem say_recorder (n : Notice) : ((recorder around).say n).run emitted = pure ((), emitted ++ [.notice n]) := rfl

theorem put_recorder_of_takes {text : String} (h : around.Takes ((textsOf emitted).length + 1)) :
    ((recorder around).put text).run emitted = pure (none, emitted ++ [.output text]) := if_pos h

theorem put_recorder_of_not_takes {text : String} (h : ¬ around.Takes ((textsOf emitted).length + 1)) :
    ((recorder around).put text).run emitted = pure (around.outputFault, emitted) := if_neg h

theorem emit_recorder_of_takes : ∀ {es emitted : List Emission}, around.Takes (textsOf (emitted ++ es)).length →
    ((recorder around).emit es).run emitted = pure (none, emitted ++ es)
  | [], emitted, _ => by
    rw [List.append_nil]
    rfl
  | .notice n :: es, emitted, h => by
    rw [List.append_cons] at h ⊢
    rw [emit, StateT.run_bind, say_recorder, pure_bind]
    exact emit_recorder_of_takes h
  | .output text :: es, emitted, h => by
    have hput : around.Takes ((textsOf emitted).length + 1) := by
      refine h.mono ?_
      rw [textsOf_append, textsOf_output, List.length_append, List.length_cons]
      omega
    rw [List.append_cons] at h ⊢
    rw [emit, StateT.run_bind, put_recorder_of_takes hput, pure_bind]
    exact emit_recorder_of_takes h

theorem emit_recorder_of_fault {cause : String} (hfault : around.outputFault = some cause) :
    ∀ {es emitted : List Emission}, (textsOf emitted).length ≤ around.outputRoom →
      around.outputRoom < (textsOf (emitted ++ es)).length →
        ((recorder around).emit es).run emitted = pure (some cause, taken around.outputRoom (emitted ++ es))
  | [], emitted, hle, hlt => by
    rw [List.append_nil] at hlt
    omega
  | .notice n :: es, emitted, hle, hlt => by
    have htexts : textsOf (emitted ++ [.notice n]) = textsOf emitted := by simp
    rw [List.append_cons] at hlt ⊢
    rw [emit, StateT.run_bind, say_recorder, pure_bind]
    exact emit_recorder_of_fault hfault (htexts ▸ hle) hlt
  | .output text :: es, emitted, hle, hlt => by
    by_cases hput : (textsOf emitted).length + 1 ≤ around.outputRoom
    · have htexts : (textsOf (emitted ++ [.output text])).length = (textsOf emitted).length + 1 := by simp
      rw [List.append_cons] at hlt ⊢
      rw [emit, StateT.run_bind, put_recorder_of_takes (.inr hput), pure_bind]
      exact emit_recorder_of_fault hfault (htexts ▸ hput) hlt
    · have hroom : around.outputRoom - (textsOf emitted).length = 0 := by omega
      have hnot : ¬ around.Takes ((textsOf emitted).length + 1) := not_or.2 ⟨by simp [hfault], hput⟩
      rw [emit, StateT.run_bind, put_recorder_of_not_takes hnot, pure_bind, hfault, taken_append_of_le hle, hroom,
        taken, List.append_nil]
      rfl

/-- **What there is room for is delivered**, and the run goes on. -/
theorem deliver_recorder_of_takes {es : List Emission} (h : around.Takes (textsOf (emitted ++ es)).length) :
    ((recorder around).deliver es).run emitted = pure (none, emitted ++ es) := by
  rw [deliver, StateT.run_bind, emit_recorder_of_takes h, pure_bind]
  rfl

/-- **Where there is no room the run ends**, whatever would have come next. -/
theorem deliver_recorder_of_not_takes {es : List Emission} (h : around.Takes (textsOf emitted).length)
    (hnot : ¬ around.Takes (textsOf (emitted ++ es)).length) (code : Nat) (rest : List Emission) :
    let r := around.outcome ⟨code, emitted ++ es ++ rest⟩
    ((recorder around).deliver es).run emitted = pure (some r.exitCode, r.emissions) := by
  obtain ⟨cause, hfault, hlt⟩ := Surroundings.exists_fault_of_not_takes hnot
  have hle := h.le_room hfault
  intro r
  have hr : r = .failed (.unwritableOutput cause) (taken around.outputRoom (emitted ++ es)) := by
    show around.outcome _ = _
    rw [Surroundings.outcome, hfault]
    exact RunReport.refused_append_of_lt cause code hlt rest
  rw [deliver, StateT.run_bind, emit_recorder_of_fault hfault hle hlt, pure_bind, hr]
  rfl

end

/-! ## Runs at a recorder -/

/-- A run of the prompt begins with what has been put out and with what the next turn puts out. -/
theorem exists_promptFrom_eq (f : LogFilter) (line : Option ByteArray) :
    ∀ (emitted : Array Emission) (lines : List (Option ByteArray)), ∃ code rest,
      promptFrom f emitted (line :: lines) =
        ⟨code, emitted.toList ++ prompt :: (turn f (.ok line)).emissions ++ rest⟩ := by
  intro emitted lines
  cases hcode : (turn f (.ok line)).exitCode? with
  | some code => exact ⟨code, [], by rw [promptFrom_of_some emitted lines hcode, List.append_nil]⟩
  | none =>
    rw [promptFrom_of_none emitted lines hcode, ← toList_push_prompt]
    cases lines with
    | nil => exact ⟨0, [], by rw [promptFrom, List.append_nil]⟩
    | cons next lines =>
      obtain ⟨code, rest, h⟩ := exists_promptFrom_eq f next (emitted.push prompt ++ (turn f (.ok line)).emissions) lines
      exact ⟨code, prompt :: (turn f (.ok next)).emissions ++ rest, h.trans (by rw [List.append_assoc])⟩

/-- **The turns of a prompt come to its report**, from any point on. -/
theorem takeTurnsOver_recorder (around : Surroundings) (f : LogFilter) :
    ∀ {emitted : Array Emission} (lines : List (Option ByteArray)), around.Takes (textsOf emitted.toList).length →
      let r := around.outcome (promptFrom f emitted lines)
      (takeTurnsOver ((recorder around).takeTurn f) lines).run emitted.toList = pure (r.exitCode, r.emissions)
  | emitted, [], h => by
    intro r
    have hr : r = ⟨0, emitted.toList⟩ := Surroundings.outcome_of_takes h
    rw [hr]
    rfl
  | emitted, line :: lines, h => by
    intro r
    rw [takeTurnsOver, takeTurn_pure, StateT.run_bind, StateT.run_map]
    by_cases htakes : around.Takes (textsOf (emitted.toList ++ prompt :: (turn f (.ok line)).emissions)).length
    · rw [deliver_recorder_of_takes htakes, map_pure, pure_bind]
      -- the turn is delivered, so it decides by itself whether it is the last
      cases hcode : (turn f (.ok line)).exitCode? with
      | some code =>
        have hr : r = ⟨code, emitted.toList ++ prompt :: (turn f (.ok line)).emissions⟩ :=
          (congrArg around.outcome (promptFrom_of_some emitted lines hcode)).trans
            (Surroundings.outcome_of_takes htakes)
        rw [hr]
        rfl
      | none =>
        have hr : r = around.outcome (promptFrom f (emitted.push prompt ++ (turn f (.ok line)).emissions) lines) :=
          congrArg around.outcome (promptFrom_of_none emitted lines hcode)
        rw [← toList_push_prompt] at htakes ⊢
        rw [hr]
        exact takeTurnsOver_recorder around f lines htakes
    · obtain ⟨code, rest, hreport⟩ := exists_promptFrom_eq f line emitted lines
      rw [deliver_recorder_of_not_takes h htakes code rest, map_pure, pure_bind, ← hreport]
      rfl

section

variable (around : Surroundings)

/-- Emissions without a report are put out as far as the output lets them through. -/
theorem emit_recorder (es : List Emission) :
    ∃ cause?, ((recorder around).emit es).run [] = pure (cause?, around.through es) := by
  by_cases htakes : around.Takes (textsOf es).length
  · rw [Surroundings.through_of_takes htakes]
    exact ⟨none, emit_recorder_of_takes htakes⟩
  · obtain ⟨cause, hfault, hlt⟩ := Surroundings.exists_fault_of_not_takes htakes
    rw [Surroundings.through, hfault]
    exact ⟨some cause, emit_recorder_of_fault hfault (Nat.zero_le _) hlt⟩

/-- A report that is delivered as a whole. -/
theorem deliver_report (r : RunReport) :
    ((fun code? => code?.getD r.exitCode) <$> (recorder around).deliver r.emissions).run [] =
      pure ((around.outcome r).exitCode, (around.outcome r).emissions) := by
  have hnil : around.Takes (textsOf []).length := .inr (Nat.zero_le _)
  rw [StateT.run_map]
  by_cases htakes : around.Takes (textsOf r.emissions).length
  · rw [deliver_recorder_of_takes htakes, map_pure, Surroundings.outcome_of_takes htakes]
    rfl
  · rw [deliver_recorder_of_not_takes hnil htakes r.exitCode [], map_pure, List.append_nil]
    rfl

/-- **The command at a recorder does what its report says**: it ends with that exit code, and what has been put out by
then are the emissions of the report. -/
theorem command_recorder (arguments : List String) :
    ((recorder around).command arguments).run [] =
      pure ((run around arguments).exitCode, (run around arguments).emissions) := by
  unfold command
  cases hread : readArguments arguments with
  | error stop =>
    obtain ⟨cause?, hemit⟩ := emit_recorder around stop.report.emissions
    dsimp only
    rw [run_stop hread, StateT.run_bind, hemit]
    rfl
  | ok options =>
    have hsetting : (recorder around).logSetting = pure around.logSetting := rfl
    rw [run_options hread, runOptions]
    dsimp only
    rw [hsetting, pure_bind]
    cases options.path with
    | some path =>
      have hfile : (recorder around).readFile path = pure (around.file path) := rfl
      dsimp only
      rw [hfile, pure_bind, bind_pure_comp]
      exact deliver_report around _
    | none => exact takeTurnsOver_recorder around _ (promptLines around.input) (.inr (Nat.zero_le _))

end

end Console
end LoxLexer
