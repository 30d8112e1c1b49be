import LoxLexer.Proofs.CursorInvariant
import LoxLexer.Proofs.Reporting
/-!
# A walk never faults and always ends

The invariant of a step, carried along runs: `Walk.Reachable.inv` for the states of a scan, `Walk.During.call` for
those of one call in it.  Each move leaves less to do (`Walk.Moves.remaining_lt`), so every loop ends.

Main statement: `walk_safe`.
-/
namespace LoxLexer
namespace Walk

variable {σ : Type} {report : Reporter σ} {source : Source} {s : σ} {w w' w₀ : Walk σ}

/-- Within the text and the machine word. -/
structure InBounds (source : Source) (w : Walk σ) : Prop where
  start_le : w.start ≤ w.current
  current_le : w.current ≤ source.chars.length
  current_lt : w.current + 1 < wordLimit
  line_lt : w.line < wordLimit
  /-- What a loop reads has been started, so that the contents of a string lie between two quotes. -/
  start_lt : w.stage.isInside = true → w.start < w.current
  asked_within : ∀ a ∈ w.asked, a.Within source

theorem Held.ne_nil {stage : Stage} {line : Nat} {held rest : List Char} (h : Held stage line held rest)
    (hinside : stage.isInside = true) : held ≠ [] := by
  cases h with
  | between => cases hinside
  | _ => exact List.cons_ne_nil _ _

theorem line_le_of_eq_lineAt (h : w.line = lineAt source.chars w.current) : w.line ≤ source.chars.length + 1 := by
  have hcount := List.count_le_length (a := '\n') (l := source.chars.take w.current)
  rw [List.length_take] at hcount
  rw [h, lineAt]
  omega

/-! ## States -/

section

variable (hsize : source.chars.length + 2 < wordLimit)

include hsize

theorem Inv.inBounds (h : Inv report source s w) : w.InBounds source := by
  obtain ⟨stands, hheld, hunit⟩ | ⟨hstage, hle, hcurrent, hline, -, hasked⟩ := h
  · have hcurrent := stands.current_le
    have hline := stands.line_le
    refine ⟨stands.start_le, hcurrent, by omega, by omega, fun hinside => ?_, stands.asked_within⟩
    have hheld := List.length_pos_iff.2 (hheld.ne_nil hinside)
    rw [unitStart_of_isInside hinside] at hunit
    rw [hunit, stands.current_eq]
    omega
  · have hline := line_le_of_eq_lineAt hline
    refine ⟨hle, Nat.le_of_eq hcurrent, by omega, by omega, fun hinside => ?_, hasked⟩
    rw [hstage] at hinside
    cases hinside

theorem Reachable.inv (h : Reachable report source s w) : Inv report source s w := by
  induction h with
  | first =>
    have hstands : Stands report source s (Walk.first s) [] [] [] source.chars :=
      ⟨rfl, piecesOf_eq source.chars, Nat.le_refl _, rfl, rfl, rfl, nofun⟩
    exact .scanning hstands .between rfl
  | step _ hstep ih =>
    obtain ⟨w', hw', hinv, -⟩ := ih.step hsize
    rw [hw'] at hstep
    cases hstep
    exact hinv

end

/-! ## Ends of loops -/

theorem remaining_between (h : w.stage = .between) :
    w.remaining source = 2 * (source.chars.length - w.current) + 1 := by
  rw [remaining, h]

theorem remaining_inside (h : w.stage.isInside = true) :
    w.remaining source = 2 * (source.chars.length - w.current) + 2 := by
  unfold remaining
  cases hstage : w.stage with
  | between => rw [hstage] at h; cases h
  | done => rw [hstage] at h; cases h
  | _ => rfl

theorem stage_cases (w : Walk σ) : w.stage = .between ∨ w.stage.isInside = true ∨ w.stage = .done := by
  cases w.stage with
  | between => exact .inl rfl
  | done => exact .inr (.inr rfl)
  | _ => exact .inr (.inl rfl)

/-- **Every move leaves less to do.** -/
theorem Moves.remaining_lt (h : Moves report source w w') (hne : w.stage ≠ .done)
    (hle : w'.current ≤ source.chars.length) : w'.remaining source < w.remaining source := by
  cases h with
  | reads hinside _ hlt _ =>
    have hleft : 2 * (source.chars.length - w.current) + 1 ≤ w.remaining source := by
      rcases w.stage_cases with hstage | hstage | hstage
      · exact Nat.le_of_eq (remaining_between hstage).symm
      · rw [remaining_inside hstage]; exact Nat.le_succ _
      · exact absurd hstage hne
    rw [remaining_inside hinside]
    omega
  | closes _ hstage _ _ hlt hle' _ =>
    rw [remaining_between hstage]
    rcases w.stage_cases with hbefore | hbefore | hbefore
    · rw [unitStart, if_pos hbefore] at hlt
      rw [remaining_between hbefore]
      omega
    · rw [remaining_inside hbefore]
      omega
    · exact absurd hbefore hne
  | leaves hbefore _ hdone =>
    rw [remaining_between hbefore, remaining, hdone]
    exact Nat.succ_pos _

/-- What goes on with less to do until it is over comes to its end. -/
theorem exists_end (source : Source) {State Over : Walk σ → Prop}
    (h : ∀ w, State w → Over w ∨ ∃ w', State w' ∧ w'.remaining source < w.remaining source) :
    ∀ w, State w → ∃ w', State w' ∧ Over w' := by
  suffices hall : ∀ n w, w.remaining source < n → State w → ∃ w', State w' ∧ Over w' from
    fun w => hall _ w (Nat.lt_succ_self _)
  intro n
  induction n with
  | zero => exact fun w hlt => absurd hlt (Nat.not_lt_zero _)
  | succ n ih =>
    intro w hlt hw
    obtain hover | ⟨w', hw', hless⟩ := h w hw
    · exact ⟨w, hw, hover⟩
    · exact ih w' (by omega) hw'

section

variable (hsize : source.chars.length + 2 < wordLimit)

include hsize

theorem Reachable.exists_step (h : Reachable report source s w) : ∃ w', w.step report source = .ok w' ∧
    Reachable report source s w' ∧
    (w.stage ≠ .done → Moves report source w w' ∧ w'.remaining source < w.remaining source) := by
  obtain ⟨w', hw', hinv, hmoves⟩ := (h.inv hsize).step hsize
  exact ⟨w', hw', h.step hw', fun hne => ⟨hmoves hne, (hmoves hne).remaining_lt hne (hinv.inBounds hsize).current_le⟩⟩

theorem exists_reachable_done : ∃ w, Reachable report source s w ∧ w.stage = .done := by
  refine exists_end source (fun w hw => ?_) (Walk.first s) .first
  by_cases hstage : w.stage = .done
  · exact .inl hstage
  · obtain ⟨w', -, hw', hmoves⟩ := hw.exists_step hsize
    exact .inr ⟨w', hw', (hmoves hstage).2⟩

theorem Reachable.progress_eq (h : Reachable report source s w) (hstage : w.stage = .done) :
    w.progress = (progressOf report source s (piecesOf source.chars)).accept
      (endToken (lineAt source.chars source.chars.length)) := by
  obtain ⟨_, hheld, _⟩ | ⟨_, _, hcurrent, hline, hprogress, _⟩ := h.inv hsize
  · rw [hstage] at hheld
    cases hheld
  · rw [hprogress, hline, hcurrent]

end

/-! ## Calls -/

/-- What has become of a call that began in `w₀`: it reads its unit, or it has returned with the unit behind it and
with what the unit comes to, a token, an error or nothing. -/
inductive Call (report : Reporter σ) (source : Source) (w₀ w : Walk σ) : Prop
  | reading (inside : w.stage.isInside = true) (start_eq : w.start = w₀.current) (lt : w₀.current < w.current)
      (progress_eq : w.progress = w₀.progress)
  | returned {p : Piece} (stage_eq : w.stage = .between) (mem : p ∈ piecesOf source.chars)
      (start_eq : p.start.offset = w₀.current) (stop_eq : p.stop = ⟨w.current, w.line⟩) (lt : w₀.current < w.current)
      (progress_eq : w.progress = w₀.progress.step report (p.outcome source))

theorem Call.of_inside (h : Call report source w₀ w) (hinside : w.stage.isInside = true) :
    w.start = w₀.current ∧ w₀.current < w.current ∧ w.progress = w₀.progress := by
  cases h with
  | reading _ hstart hlt hprogress => exact ⟨hstart, hlt, hprogress⟩
  | returned hstage _ _ _ _ _ => rw [hstage] at hinside; cases hinside

theorem During.call (hsize : source.chars.length + 2 < wordLimit) (hw₀ : Reachable report source s w₀)
    (hbetween : w₀.stage = .between) (hlt : w₀.current < source.chars.length) (h : During report source w₀ w) :
    Reachable report source s w ∧ Call report source w₀ w := by
  induction h with
  | enter hstep =>
    obtain ⟨w', hw', hreach, hmoves⟩ := hw₀.exists_step hsize
    have hunit : w₀.unitStart = w₀.current := if_pos hbetween
    rw [hw'] at hstep
    cases hstep
    obtain ⟨hmoves, -⟩ := hmoves (by rw [hbetween]; nofun)
    refine ⟨hreach, ?_⟩
    cases hmoves with
    | reads hinside hstart hless hprogress => exact .reading hinside (hstart.trans hunit) hless hprogress
    | closes hmem hstage hstart hstop hless _ hprogress =>
      exact .returned hstage hmem (hstart.trans hunit) hstop (hunit ▸ hless) hprogress
    | leaves _ hend _ => exact absurd hlt (Nat.not_lt_of_le hend)
  | turn _ hinside hstep ih =>
    -- in its loop a call still has the start and the progress it began with
    obtain ⟨hreach, hcall⟩ := ih
    obtain ⟨hstart, hless, hprogress⟩ := hcall.of_inside hinside
    obtain ⟨w'', hw'', hreach', hmoves⟩ := hreach.exists_step hsize
    rw [hw''] at hstep
    cases hstep
    obtain ⟨hmoves, -⟩ := hmoves (fun hdone => by rw [hdone] at hinside; cases hinside)
    refine ⟨hreach', ?_⟩
    cases hmoves with
    | reads hinside' hstart' hless' hprogress' =>
      rw [unitStart_of_isInside hinside, hstart] at hstart'
      exact .reading hinside' hstart' (Nat.lt_trans hless hless') (hprogress'.trans hprogress)
    | closes hmem hstage hstart' hstop _ hle hprogress' =>
      rw [unitStart_of_isInside hinside, hstart] at hstart'
      rw [hprogress] at hprogress'
      exact .returned hstage hmem hstart' hstop (Nat.lt_of_lt_of_le hless hle) hprogress'
    | leaves hbetween' _ _ => rw [hbetween'] at hinside; cases hinside

theorem exists_during_between (hsize : source.chars.length + 2 < wordLimit) (hw₀ : Reachable report source s w₀)
    (hbetween : w₀.stage = .between) (hlt : w₀.current < source.chars.length) :
    ∃ w, During report source w₀ w ∧ w.stage = .between := by
  obtain ⟨w', hw', -, -⟩ := hw₀.exists_step hsize
  refine exists_end source (fun w hw => ?_) w' (.enter hw')
  obtain ⟨hreach, hcall⟩ := hw.call hsize hw₀ hbetween hlt
  cases hcall with
  | returned hstage _ _ _ _ _ => exact .inl hstage
  | reading hinside _ _ _ =>
    obtain ⟨w'', hw'', -, hmoves⟩ := hreach.exists_step hsize
    exact .inr ⟨w'', hw.turn hinside hw'', (hmoves (fun hdone => by rw [hdone] at hinside; cases hinside)).2⟩

end Walk

/-! ## The token of the end -/

theorem ofWord_ne_eof (word : String) : TokenKind.ofWord word ≠ .eof := by
  rw [TokenKind.ofWord]
  cases Keyword.ofWord? word with
  | none => exact fun h => TokenKind.noConfusion h
  | some k => exact fun h => TokenKind.noConfusion h

theorem LexUnit.kind_ne_eof {u : LexUnit} {t : Token} (h : u.outcome = .token t) : t.kind ≠ .eof := by
  unfold LexUnit.outcome at h
  split at h
  · cases h
  · cases h
  · cases h; nofun
  · cases h; exact ofWord_ne_eof _
  · cases h; nofun
  · simp only at h
    split at h <;> cases h
    nofun
  · cases h
  · cases h

theorem kind_ne_eof_of_mem {line : Nat} {cs : List Char} {t : Token}
    (h : t ∈ (outcomesFrom line cs).filterMap Outcome.token?) : t.kind ≠ .eof := by
  obtain ⟨o, ho, hot⟩ := List.mem_filterMap.1 h
  obtain ⟨u, -, rfl⟩ := List.mem_map.1 ho
  refine LexUnit.kind_ne_eof (u := u) ?_
  cases houtcome : u.outcome with
  | token t' =>
    rw [houtcome] at hot
    rw [Option.some.inj hot]
  | _ => rw [houtcome] at hot; cases hot

/-- **A walk over a text of less than half the machine word never faults and always ends.**  Every state is within its
bounds, what it has asked for is there, and it has a next one, with less to do.  Every call takes a unit of the text
and comes to what that unit comes to.  The last state has made the whole scan, which ends with its only token of the
end. -/
theorem walk_safe {σ : Type} (report : Reporter σ) (s : σ) (text : String)
    (hsize : text.utf8ByteSize < 0x8000000000000000) :
    let source := Source.ofString text
    (∀ w, Walk.Reachable report source s w → w.InBounds source ∧
      ∃ w', w.step report source = .ok w' ∧ (w.stage ≠ .done → w'.remaining source < w.remaining source)) ∧
    (∀ w₀, Walk.Reachable report source s w₀ → w₀.stage = .between → w₀.current < source.chars.length →
      (∀ w, Walk.During report source w₀ w → Walk.Call report source w₀ w) ∧
        ∃ w, Walk.During report source w₀ w ∧ w.stage = .between) ∧
    (∃ w, Walk.Reachable report source s w ∧ w.stage = .done) ∧
    ∀ w, Walk.Reachable report source s w → w.stage = .done →
      w.progress = scanWith report s text ∧
        ∃ ts line, w.progress.tokens.toList = ts ++ [endToken line] ∧ ∀ t ∈ ts, t.kind ≠ .eof := by
  intro source
  have hlength : source.chars.length ≤ text.utf8ByteSize := length_le_utf8ByteSize text
  have hroom : source.chars.length + 2 < wordLimit := by unfold wordLimit; omega
  refine ⟨fun w hw => ⟨(hw.inv hroom).inBounds hroom, ?_⟩, fun w₀ hw₀ hbetween hlt => ⟨fun w hw => ?_, ?_⟩,
    Walk.exists_reachable_done hroom, fun w hw hdone => ?_⟩
  · obtain ⟨w', hw', -, hmoves⟩ := hw.exists_step hroom
    exact ⟨w', hw', fun hne => (hmoves hne).2⟩
  · exact (hw.call hroom hw₀ hbetween hlt).2
  · exact Walk.exists_during_between hroom hw₀ hbetween hlt
  · have hprogress : w.progress = scanWith report s text := by
      rw [hw.progress_eq hroom hdone, scanWith, piecesOf_eq, endOfPieces_piecesFrom, lineAt_length]
      rfl
    have htokens : w.progress.tokens.toList = (outcomesFrom 1 text.toList).filterMap Outcome.token? ++
        [endToken (1 + text.toList.count '\n')] := by
      rw [hprogress, tokens_scanWith, tokens_scan]
    exact ⟨hprogress, _, _, htokens, fun t ht => kind_ne_eof_of_mem ht⟩

/-- An empty string behind a character of three bytes that starts nothing, while errors are counted. -/
theorem walk_safe_empty_string :
    let report : Reporter Nat := fun n _ => n + 1
    "€\"\"".utf8ByteSize < 0x8000000000000000 ∧
      ∃ w, Walk.Reachable report (Source.ofString "€\"\"") 0 w ∧ w.stage = .done ∧ w.progress.reported = 1 ∧
        w.progress.tokens.toList = [⟨.string, "\"\"", some (.string ""), 1⟩, endToken 1] := by
  intro report
  have hsize : "€\"\"".utf8ByteSize < 0x8000000000000000 := by decide +kernel
  obtain ⟨-, -, ⟨w, hw, hdone⟩, hend⟩ := walk_safe report 0 "€\"\"" hsize
  refine ⟨hsize, w, hw, hdone, ?_, ?_⟩
  · rw [(hend w hw hdone).1]
    decide +kernel
  · rw [(hend w hw hdone).1]
    decide +kernel

end LoxLexer
