import LoxLexer.Proofs.Meaning
/-!
# The line law

A line number counts line feeds, wherever they stand (`lineAt`).  Main statement: `scan_lines`, the pieces of a text
cover it without a gap, and what a piece comes to is on the line of its first character, except that an open string is
reported on the line of the end.
-/
namespace LoxLexer

/-- The line of a position: one more than the line feeds before it. -/
def lineAt (cs : List Char) (i : Nat) : Nat := 1 + (cs.take i).count '\n'

/-- The pieces follow each other from `i` to `j`, none of them empty. -/
def Covers (i j : Nat) : List Piece → Prop
  | [] => i = j
  | p :: ps => p.start.offset = i ∧ i < p.stop.offset ∧ Covers p.stop.offset j ps

theorem covers_append : ∀ {i j : Nat} {ps qs : List Piece},
    Covers i j (ps ++ qs) ↔ ∃ k, Covers i k ps ∧ Covers k j qs
  | i, j, [], qs => by
    constructor
    · exact fun h => ⟨i, rfl, h⟩
    · rintro ⟨k, rfl, h⟩
      exact h
  | i, j, p :: ps, qs => by
    constructor
    · rintro ⟨hstart, hlt, h⟩
      obtain ⟨k, hps, hqs⟩ := covers_append.1 h
      exact ⟨k, ⟨hstart, hlt, hps⟩, hqs⟩
    · rintro ⟨k, ⟨hstart, hlt, hps⟩, hqs⟩
      exact ⟨hstart, hlt, covers_append.2 ⟨k, hps, hqs⟩⟩

theorem Covers.le : ∀ {i j : Nat} {ps : List Piece}, Covers i j ps → i ≤ j
  | _, _, [], h => Nat.le_of_eq h
  | _, _, _ :: _, ⟨_, hlt, h⟩ => Nat.le_trans (Nat.le_of_lt hlt) h.le

/-- Each piece lies where the pieces lie. -/
theorem Covers.bounds {i j : Nat} {ps : List Piece} (h : Covers i j ps) :
    ∀ q ∈ ps, i ≤ q.start.offset ∧ q.stop.offset ≤ j := by
  intro q hq
  obtain ⟨before, after, rfl⟩ := List.append_of_mem hq
  obtain ⟨k, hbefore, hstart, -, hafter⟩ := covers_append.1 h
  exact ⟨hstart ▸ hbefore.le, hafter.le⟩

theorem filter_append_left {p : Piece → Bool} {front rest : List Piece} (hfront : ∀ q ∈ front, p q = true)
    (hrest : ∀ q ∈ rest, p q = false) : (front ++ rest).filter p = front := by
  rw [List.filter_append, List.filter_eq_self.2 hfront,
    List.filter_eq_nil_iff.2 (fun q hq => Bool.eq_false_iff.1 (hrest q hq)), List.append_nil]

/-- A piece stands in a text: what is before it, its own characters and what is behind it make up the text. -/
structure Piece.StandsIn (p : Piece) (place : Place) (cs : List Char) (before front after : List Char) : Prop where
  text_eq : cs = before ++ (front ++ after)
  start_eq : p.start = place.advance before
  stop_eq : p.stop = p.start.advance front
  lawful : LexUnit.Lawful ⟨p.shape, p.start.line, front⟩
  open_last : p.shape = .openString → after = []

theorem exists_standsIn {place : Place} {cs : List Char} {p : Piece} (h : p ∈ piecesFrom place cs) :
    ∃ before front after, p.StandsIn place cs before front after := by
  fun_induction piecesFrom place cs with
  | case1 place => cases h
  | case2 place c cs shape more hcut stop ih =>
    rcases List.mem_cons.1 h with rfl | h
    · refine ⟨[], c :: cs.take more, cs.drop more, ?_, rfl, rfl, ?_, fun hs => ?_⟩
      · exact (front_append_drop c more cs).symm
      · have := LexUnit.lawful_cut place.line c cs
        rwa [hcut] at this
      · have hall : (Shape.cut c cs).2 = cs.length := Shape.cut_openString (by rw [hcut]; exact hs)
        rw [hcut] at hall
        exact List.drop_eq_nil_of_le (Nat.le_of_eq hall.symm)
    · obtain ⟨before, front, after, ht, hstart, hstop, hl, ho⟩ := ih h
      refine ⟨c :: cs.take more ++ before, front, after, ?_, ?_, hstop, hl, ho⟩
      · rw [List.append_assoc, ← ht, front_append_drop]
      · rw [hstart, Place.advance_advance]

theorem le_start_of_mem_piecesFrom {place : Place} {cs : List Char} {p : Piece} (h : p ∈ piecesFrom place cs) :
    place.offset ≤ p.start.offset := by
  obtain ⟨before, front, after, hstands⟩ := exists_standsIn h
  rw [hstands.start_eq]
  exact Nat.le_add_right _ _

theorem le_stop_of_mem_piecesFrom {place : Place} {cs : List Char} {p : Piece} (h : p ∈ piecesFrom place cs) :
    place.offset ≤ p.stop.offset := by
  obtain ⟨before, front, after, hstands⟩ := exists_standsIn h
  rw [hstands.stop_eq]
  exact Nat.le_trans (le_start_of_mem_piecesFrom h) (Nat.le_add_right _ _)

theorem covers_piecesFrom (place : Place) (cs : List Char) :
    Covers place.offset (place.offset + cs.length) (piecesFrom place cs) := by
  fun_induction piecesFrom place cs with
  | case1 place => rfl
  | case2 place c cs shape more hcut stop ih =>
    have hstop : stop.offset = place.offset + (c :: cs.take more).length := rfl
    have hlen : stop.offset + (cs.drop more).length = place.offset + (c :: cs).length := by
      rw [hstop, Nat.add_assoc, ← List.length_append, front_append_drop]
    rw [hlen] at ih
    exact ⟨rfl, Nat.lt_add_of_pos_right (Nat.succ_pos _), ih⟩

theorem covers_piecesOf (cs : List Char) : Covers 0 cs.length (piecesOf cs) := by
  have := covers_piecesFrom .first cs
  rw [piecesOf_eq]
  rwa [Place.first, Nat.zero_add] at this

theorem lineAt_append (before rest : List Char) : lineAt (before ++ rest) before.length = 1 + before.count '\n' := by
  rw [lineAt, List.take_left]

theorem lineAt_length (cs : List Char) : lineAt cs cs.length = 1 + cs.count '\n' := by
  rw [lineAt, List.take_length]

namespace Piece.StandsIn

variable {source : Source} {p : Piece} {before front after : List Char}

theorem start_offset (h : p.StandsIn .first source.chars before front after) : p.start.offset = before.length := by
  rw [h.start_eq, Place.advance, Place.first, Nat.zero_add]

theorem start_line (h : p.StandsIn .first source.chars before front after) :
    p.start.line = lineAt source.chars p.start.offset := by
  rw [h.start_offset, h.text_eq, lineAt_append, h.start_eq]
  rfl

/-- A piece denotes what it comes to. -/
theorem denotes (h : p.StandsIn .first source.chars before front after) :
    Denotes ⟨p.shape, p.start.line, front⟩ (p.outcome source) := by
  have hstring : p.shape = .string → Shape.Matches .string front := by
    intro hs
    obtain hm | ⟨c, -, hs', -⟩ := h.lawful
    · exact hs ▸ hm
    · rw [hs] at hs'; cases hs'
  have houtcome := outcome_piece h.text_eq h.start_offset hstring
  rw [← h.stop_eq] at houtcome
  exact (denotes_iff h.lawful).2 houtcome

theorem token_eq {t : Token} (h : p.StandsIn .first source.chars before front after)
    (ht : p.outcome source = .token t) :
    t.line = lineAt source.chars p.start.offset ∧
      t.lexeme.toList = (source.chars.take p.stop.offset).drop p.start.offset := by
  have hdenotes := h.denotes
  rw [ht] at hdenotes
  obtain ⟨hline, hchars⟩ := hdenotes.token_eq
  have hstop : p.stop.offset = (before ++ front).length := by
    rw [h.stop_eq, Place.advance, h.start_offset, List.length_append]
  refine ⟨hline.trans h.start_line, hchars.trans ?_⟩
  rw [h.start_offset, hstop, h.text_eq, ← List.append_assoc, List.take_left, List.drop_left]

theorem error_line {line : Nat} {e : LexError} (h : p.StandsIn .first source.chars before front after)
    (he : p.outcome source = .error line e) :
    line = if e = .unterminatedString then lineAt source.chars source.chars.length
      else lineAt source.chars p.start.offset := by
  have hdenotes := h.denotes
  rw [he] at hdenotes
  rcases hdenotes.error_line with ⟨rfl, hshape, hline⟩ | ⟨hne, hline⟩
  -- nothing is behind an open string, so its end is the end of the text
  · obtain rfl := h.open_last hshape
    rw [if_pos rfl, hline, LexUnit.endLine, h.start_eq, lineAt_length, h.text_eq, List.append_nil, List.count_append]
    exact Nat.add_assoc _ _ _
  · rw [if_neg hne, hline, h.start_line]

end Piece.StandsIn

/-- **The line law.** -/
theorem scan_lines (text : String) :
    let cs := text.toList
    let pieces := piecesOf cs
    let outcome := Piece.outcome (Source.ofString text)
    Covers 0 cs.length pieces ∧
    (scan text).tokens = pieces.filterMap (fun p => (outcome p).token?) ++ [endToken (lineAt cs cs.length)] ∧
    (scan text).diagnostics = pieces.filterMap (fun p => (outcome p).diagnostic?) ∧
    ∀ p ∈ pieces,
      (∀ t, outcome p = .token t → t.line = lineAt cs p.start.offset ∧
        t.lexeme.toList = (cs.take p.stop.offset).drop p.start.offset) ∧
      (∀ line e, outcome p = .error line e →
        line = if e = .unterminatedString then lineAt cs cs.length else lineAt cs p.start.offset) := by
  intro cs pieces outcome
  have hpieces : pieces = piecesFrom .first cs := piecesOf_eq cs
  have houtcomes : pieces.map outcome = outcomesFrom 1 cs := by
    rw [hpieces]
    exact map_outcome_piecesFrom (Source.ofString text) .first [] cs rfl rfl
  refine ⟨?_, ?_, ?_, fun p hp => ?_⟩
  · have := covers_piecesFrom .first cs
    rw [hpieces]
    rwa [Place.first, Nat.zero_add] at this
  · rw [tokens_scan, ← houtcomes, List.filterMap_map, lineAt_length]
    rfl
  · rw [diagnostics_scan, ← houtcomes, List.filterMap_map]
    rfl
  · rw [hpieces] at hp
    obtain ⟨before, front, after, hstands⟩ := exists_standsIn hp
    have hstands : p.StandsIn .first (Source.ofString text).chars before front after := hstands
    exact ⟨fun t ht => hstands.token_eq ht, fun line e he => hstands.error_line he⟩

/-- A string that nothing closes, opened on the second line of three. -/
theorem scan_lines_open_string :
    let p : Piece := ⟨.openString, ⟨2, 2⟩, ⟨6, 3⟩⟩
    p ∈ piecesOf "a\n\"b\nc".toList ∧
      p.outcome (Source.ofString "a\n\"b\nc") = .error 3 .unterminatedString ∧
      3 = lineAt "a\n\"b\nc".toList "a\n\"b\nc".toList.length := by
  intro p
  have hp : p ∈ piecesOf "a\n\"b\nc".toList := by decide +kernel
  have he : p.outcome (Source.ofString "a\n\"b\nc") = .error 3 .unterminatedString := by decide +kernel
  exact ⟨hp, he, ((scan_lines "a\n\"b\nc").2.2.2 p hp).2 3 .unterminatedString he⟩

end LoxLexer
