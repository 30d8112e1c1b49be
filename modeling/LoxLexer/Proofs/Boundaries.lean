import LoxLexer.Proofs.Joining
import LoxLexer.Proofs.LineNumbers
/-!
# Boundaries between units

Where one unit ends and the next begins, a scan carries nothing on but where it is and on which line: the pieces from
there on are the pieces of what is left (`exists_split`).  So what is left comes to the same in every text that has it
behind a boundary, only further down or up.

Main statement: `scan_from_boundary`.
-/
namespace LoxLexer

/-- A position at which a text starts or one of its pieces stops. -/
def IsBoundary (cs : List Char) (i : Nat) : Prop := i = 0 ∨ ∃ p ∈ piecesOf cs, p.stop.offset = i

/-! ## Splitting at a boundary -/

theorem Place.advance_nil (place : Place) : place.advance [] = place := rfl

/-- **From a boundary on, the pieces are those of what is left**, and those before it start before it. -/
theorem exists_split (place : Place) (cs : List Char) : ∀ i : Nat,
    (i = 0 ∨ ∃ p ∈ piecesFrom place cs, p.stop.offset = place.offset + i) →
      i ≤ cs.length ∧ ∃ before, piecesFrom place cs = before ++ piecesFrom (place.advance (cs.take i)) (cs.drop i) ∧
        ∀ p ∈ before, p.start.offset < place.offset + i := by
  fun_induction piecesFrom place cs with
  | case1 place =>
    rintro i (rfl | ⟨p, hp, -⟩)
    · exact ⟨Nat.le_refl _, [], by simp [piecesFrom], List.forall_mem_nil _⟩
    · cases hp
  | case2 place c cs shape more hcut stop ih =>
    rintro i (rfl | ⟨p, hp, hstop⟩)
    · refine ⟨Nat.zero_le _, [], ?_, List.forall_mem_nil _⟩
      rw [List.take_zero, List.drop_zero, Place.advance_nil, piecesFrom, hcut]
      rfl
    -- the boundary is the end of the first piece, or one of what is left behind it
    · have hlength : stop.offset = place.offset + (c :: cs.take more).length := rfl
      have hrest : ∃ k, i = (c :: cs.take more).length + k ∧
          (k = 0 ∨ ∃ p ∈ piecesFrom stop (cs.drop more), p.stop.offset = stop.offset + k) := by
        rcases List.mem_cons.1 hp with rfl | hp
        · exact ⟨0, Nat.add_left_cancel (hstop.symm.trans hlength), .inl rfl⟩
        · have hle := le_stop_of_mem_piecesFrom hp
          exact ⟨p.stop.offset - stop.offset, by omega, .inr ⟨p, hp, by omega⟩⟩
      obtain ⟨k, rfl, hk⟩ := hrest
      obtain ⟨hle, before, hpieces, hbefore⟩ := ih k hk
      have htext := front_append_drop c more cs
      refine ⟨?_, ⟨shape, place, stop⟩ :: before, ?_, List.forall_mem_cons.2 ⟨?_, fun q hq => ?_⟩⟩
      · rw [← htext, List.length_append]
        exact Nat.add_le_add_left hle _
      · rw [hpieces, ← htext, List.take_length_add_append, List.drop_length_add_append, ← Place.advance_advance]
        rfl
      · exact Nat.lt_of_lt_of_le (Nat.lt_add_of_pos_right (Nat.succ_pos _))
          (Nat.add_le_add_left (Nat.le_add_right _ k) _)
      · rw [← Nat.add_assoc, ← hlength]
        exact hbefore q hq

/-- **A boundary takes no piece apart**, and the pieces that start there or behind it are those of what is left. -/
theorem piecesOf_split {cs : List Char} {i : Nat} (hi : IsBoundary cs i) :
    i ≤ cs.length ∧
    piecesOf cs = ((piecesOf cs).filter fun p => p.start.offset < i) ++
      (piecesOf cs).filter (fun p => i ≤ p.start.offset) ∧
    (piecesOf cs).filter (fun p => i ≤ p.start.offset) = piecesFrom ⟨i, lineAt cs i⟩ (cs.drop i) := by
  have hboundary : i = 0 ∨ ∃ p ∈ piecesFrom .first cs, p.stop.offset = Place.first.offset + i := by
    rcases hi with hi | ⟨p, hp, hstop⟩
    · exact .inl hi
    · exact .inr ⟨p, piecesOf_eq cs ▸ hp, by rw [hstop, Place.first, Nat.zero_add]⟩
  obtain ⟨hle, before, hpieces, hbefore⟩ := exists_split .first cs i hboundary
  have hplace : Place.first.advance (cs.take i) = ⟨i, lineAt cs i⟩ := by
    rw [Place.advance, Place.first, lineAt, List.length_take_of_le hle, Nat.zero_add]
  rw [hplace, ← piecesOf_eq] at hpieces
  rw [Place.first, Nat.zero_add] at hbefore
  have hafter : ∀ p ∈ piecesFrom ⟨i, lineAt cs i⟩ (cs.drop i), i ≤ p.start.offset :=
    fun p hp => le_start_of_mem_piecesFrom hp
  have hfront : (piecesOf cs).filter (fun p => p.start.offset < i) = before := by
    rw [hpieces]
    exact filter_append_left (fun p hp => decide_eq_true (hbefore p hp))
      (fun p hp => decide_eq_false (Nat.not_lt.2 (hafter p hp)))
  have hrest : (piecesOf cs).filter (fun p => i ≤ p.start.offset) = piecesFrom ⟨i, lineAt cs i⟩ (cs.drop i) := by
    rw [hpieces, List.filter_append, List.filter_eq_nil_iff.2 (fun p hp => by simpa using hbefore p hp),
      List.filter_eq_self.2 (fun p hp => decide_eq_true (hafter p hp)), List.nil_append]
  refine ⟨hle, ?_, hrest⟩
  rw [hfront, hrest]
  exact hpieces

/-! ## What a scan produces before and behind a position -/

section

variable {α : Type} (view : Outcome → Option α) (text : String) (i : Nat)

/-- What the pieces come to that start before a position, as far as `view` shows it. -/
def producedBefore : List α :=
  ((piecesOf text.toList).filter fun p => p.start.offset < i).filterMap
    fun p => view (p.outcome (Source.ofString text))

/-- What the pieces come to that start at a position or behind it. -/
def producedFrom : List α :=
  ((piecesOf text.toList).filter fun p => i ≤ p.start.offset).filterMap
    fun p => view (p.outcome (Source.ofString text))

end

/-- The tokens that a scan produces from a position on, with the one that ends it. -/
def tokensFrom (text : String) (i : Nat) : List Token :=
  producedFrom Outcome.token? text i ++ [endToken (lineAt text.toList text.toList.length)]

def diagnosticsFrom (text : String) (i : Nat) : List Diagnostic := producedFrom Outcome.diagnostic? text i

/-- How many line feeds stand before a position. -/
def feedsBefore (text : String) (i : Nat) : Nat := (text.toList.take i).count '\n'

/-- What stands at a position and behind it. -/
def textFrom (text : String) (i : Nat) : String := String.ofList (text.toList.drop i)

theorem lineAt_length_textFrom (text : String) (i : Nat) : lineAt text.toList text.toList.length =
    1 + (textFrom text i).toList.count '\n' + feedsBefore text i := by
  have hcount := congrArg (List.count '\n') (List.take_append_drop i text.toList)
  rw [List.count_append] at hcount
  unfold textFrom feedsBefore
  rw [lineAt_length, String.toList_ofList, ← hcount]
  omega

section

variable {text : String} {i : Nat} (hi : IsBoundary text.toList i)

include hi

theorem producedBefore_append {α : Type} (view : Outcome → Option α) :
    producedBefore view text i ++ producedFrom view text i = (outcomesFrom 1 text.toList).filterMap view := by
  unfold producedBefore producedFrom
  rw [← List.filterMap_append, ← (piecesOf_split hi).2.1, filterMap_outcome_piecesOf]

/-- **What is produced from a boundary on** is what the text comes to that is left, on its lines. -/
theorem producedFrom_eq {α : Type} (view : Outcome → Option α) :
    producedFrom view text i =
      ((outcomesFrom 1 (textFrom text i).toList).map (Outcome.down (feedsBefore text i))).filterMap view := by
  obtain ⟨hle, -, hpieces⟩ := piecesOf_split hi
  have houtcomes := map_outcome_piecesFrom (Source.ofString text) ⟨i, lineAt text.toList i⟩
    (text.toList.take i) (text.toList.drop i) (List.take_append_drop i _).symm (List.length_take_of_le hle).symm
  unfold producedFrom textFrom feedsBefore
  rw [hpieces, String.toList_ofList, ← outcomesFrom_add, ← lineAt, ← houtcomes, List.filterMap_map]
  rfl

/-- **From a boundary on, a fresh scan does as well.** -/
theorem tokensFrom_eq : tokensFrom text i = (scan (textFrom text i)).tokens.map (Token.down (feedsBefore text i)) := by
  unfold tokensFrom
  rw [producedFrom_eq hi, filterMap_token_down, lineAt_length_textFrom text i, tokens_scan, List.map_append]
  rfl

theorem diagnosticsFrom_eq :
    diagnosticsFrom text i = (scan (textFrom text i)).diagnostics.map (Diagnostic.down (feedsBefore text i)) := by
  unfold diagnosticsFrom
  rw [producedFrom_eq hi, filterMap_diagnostic_down, diagnostics_scan]

end

theorem Token.down_comm (k k' : Nat) (t : Token) : (t.down k).down k' = (t.down k').down k := by
  unfold Token.down
  simp [Nat.add_right_comm]

theorem Diagnostic.down_comm (k k' : Nat) (d : Diagnostic) : (d.down k).down k' = (d.down k').down k := by
  unfold Diagnostic.down
  simp [Nat.add_right_comm]

/-- **Between its units a scan has no state but its line.**  Where two texts go on alike behind a boundary, their scans
produce the same from there on, on lines that differ by the line feeds before.  So a scan can be taken up at any
boundary by a fresh one of what is left. -/
theorem scan_from_boundary {s s' : String} {i j : Nat} (hi : IsBoundary s.toList i) (hj : IsBoundary s'.toList j)
    (hrest : textFrom s i = textFrom s' j) :
    (scan s).tokens = producedBefore Outcome.token? s i ++ tokensFrom s i ∧
    (scan s).diagnostics = producedBefore Outcome.diagnostic? s i ++ diagnosticsFrom s i ∧
    (tokensFrom s i).map (Token.down (feedsBefore s' j)) = (tokensFrom s' j).map (Token.down (feedsBefore s i)) ∧
    (diagnosticsFrom s i).map (Diagnostic.down (feedsBefore s' j)) =
      (diagnosticsFrom s' j).map (Diagnostic.down (feedsBefore s i)) ∧
    tokensFrom s i = (scan (textFrom s i)).tokens.map (Token.down (feedsBefore s i)) ∧
    diagnosticsFrom s i = (scan (textFrom s i)).diagnostics.map (Diagnostic.down (feedsBefore s i)) := by
  refine ⟨?_, ?_, ?_, ?_, tokensFrom_eq hi, diagnosticsFrom_eq hi⟩
  · unfold tokensFrom
    rw [← List.append_assoc, producedBefore_append hi, lineAt_length, tokens_scan]
  · unfold diagnosticsFrom
    rw [producedBefore_append hi, diagnostics_scan]
  · rw [tokensFrom_eq hi, tokensFrom_eq hj, hrest, List.map_map, List.map_map]
    exact List.map_congr_left (fun t _ => t.down_comm _ _)
  · rw [diagnosticsFrom_eq hi, diagnosticsFrom_eq hj, hrest, List.map_map, List.map_map]
    exact List.map_congr_left (fun d _ => d.down_comm _ _)

/-- Behind a bad character that follows a string over two lines, and behind a comment. -/
theorem scan_from_boundary_behind_comment :
    let s := "\"a\nb\"é\n@ 1.5"
    let s' := "// x\n@ 1.5"
    IsBoundary s.toList 6 ∧ IsBoundary s'.toList 4 ∧ textFrom s 6 = textFrom s' 4 ∧
      feedsBefore s 6 = 1 ∧ feedsBefore s' 4 = 0 ∧
      tokensFrom s 6 = [⟨.number, "1.5", some (.number ⟨0x3ff8000000000000⟩), 3⟩, endToken 3] ∧
      (tokensFrom s 6).map (Token.down 0) = (tokensFrom s' 4).map (Token.down 1) ∧
      diagnosticsFrom s 6 = [⟨3, "", .unexpectedCharacter '@'⟩] ∧
      (diagnosticsFrom s 6).map (Diagnostic.down 0) = (diagnosticsFrom s' 4).map (Diagnostic.down 1) := by
  intro s s'
  have hi : IsBoundary s.toList 6 := .inr ⟨⟨.bad 'é', ⟨5, 2⟩, ⟨6, 2⟩⟩, by decide +kernel, rfl⟩
  have hj : IsBoundary s'.toList 4 := .inr ⟨⟨.comment, ⟨0, 1⟩, ⟨4, 1⟩⟩, by decide +kernel, rfl⟩
  have hrest : textFrom s 6 = textFrom s' 4 := by decide +kernel
  have hfeeds : feedsBefore s 6 = 1 := by decide +kernel
  have hfeeds' : feedsBefore s' 4 = 0 := by decide +kernel
  obtain ⟨-, -, htokens, hdiagnostics, hfresh, hfresh'⟩ := scan_from_boundary hi hj hrest
  rw [hfeeds, hfeeds'] at htokens hdiagnostics
  exact ⟨hi, hj, hrest, hfeeds, hfeeds', hfresh.trans (by decide +kernel), htokens,
    hfresh'.trans (by decide +kernel), hdiagnostics⟩

end LoxLexer
