import LoxLexer.Proofs.Meaning
/-!
# Maximal munch

A text has one reading: cut off the longest match or a bad character, note what it denotes, and go on behind it.  Main
statement: `scan_maximalMunch`, a scan returns the tokens and the diagnostics of that reading.
-/
namespace LoxLexer

/-- Maximal munch from `line` on: the first unit of the text and what it denotes, then the reading of what is left. -/
inductive MaximalMunch : Nat → List Char → List (LexUnit × Outcome) → Prop
  | nil {line : Nat} : MaximalMunch line [] []
  | cons {line : Nat} {front rest : List Char} {shape : Shape} {o : Outcome} {reading : List (LexUnit × Outcome)}
      (first : FirstUnit (front ++ rest) shape front) (denotes : Denotes ⟨shape, line, front⟩ o)
      (others : MaximalMunch (line + front.count '\n') rest reading) :
      MaximalMunch line (front ++ rest) ((⟨shape, line, front⟩, o) :: reading)

theorem maximalMunch_unitsFrom (line : Nat) (cs : List Char) :
    MaximalMunch line cs ((unitsFrom line cs).map fun u => (u, u.outcome)) := by
  fun_induction unitsFrom line cs with
  | case1 line => exact .nil
  | case2 line c cs front ih =>
    have htext : c :: cs = front ++ cs.drop (Shape.cut c cs).2 := (front_append_drop c _ cs).symm
    rw [List.map_cons, htext]
    exact .cons (htext ▸ firstUnit_cut c cs) (denotes_outcome (LexUnit.lawful_cut line c cs)) ih

theorem FirstUnit.ne_nil {text front : List Char} {shape : Shape} (h : FirstUnit text shape front) : front ≠ [] := by
  cases h with
  | longest h => exact h.matches_front.ne_nil
  | bad _ => exact List.cons_ne_nil _ _

theorem MaximalMunch.eq_unitsFrom {line : Nat} {cs : List Char} {reading : List (LexUnit × Outcome)}
    (h : MaximalMunch line cs reading) : reading = (unitsFrom line cs).map fun u => (u, u.outcome) := by
  induction h with
  | nil => rw [unitsFrom_nil]; rfl
  | @cons line front rest shape o reading first denotes others ih =>
    obtain ⟨c, front, rfl⟩ := List.exists_cons_of_ne_nil first.ne_nil
    rw [List.cons_append] at first ⊢
    obtain ⟨rfl, hfront⟩ := firstUnit_iff.1 first
    have hrest : (front ++ rest).drop (Shape.cut c (front ++ rest)).2 = rest := by
      have := List.take_append_drop (Shape.cut c (front ++ rest)).2 (front ++ rest)
      rw [← (List.cons.inj hfront).2] at this
      exact List.append_cancel_left this
    have hlawful := LexUnit.lawful_cut line c (front ++ rest)
    rw [← hfront] at hlawful
    rw [ih, (denotes_iff hlawful).1 denotes, unitsFrom, ← hfront, hrest, List.map_cons]

/-- **A scan is the reading of its text**: there is exactly one, its units are the whole text, and it gives the
tokens, up to the one that ends the text, and the diagnostics. -/
theorem scan_maximalMunch (text : String) :
    ∃ reading, (∀ other, MaximalMunch 1 text.toList other ↔ other = reading) ∧
      reading.flatMap (fun p => p.1.chars) = text.toList ∧
      (scan text).tokens =
        reading.filterMap (fun p => p.2.token?) ++ [⟨.eof, "", none, 1 + text.toList.count '\n'⟩] ∧
      (scan text).diagnostics = reading.filterMap (fun p => p.2.diagnostic?) := by
  refine ⟨(unitsFrom 1 text.toList).map fun u => (u, u.outcome),
    fun other => ⟨MaximalMunch.eq_unitsFrom, ?_⟩, ?_, ?_, ?_⟩
  · rintro rfl
    exact maximalMunch_unitsFrom 1 text.toList
  · rw [List.flatMap_map]
    exact flatMap_chars_unitsFrom 1 text.toList
  · rw [tokens_scan, outcomesFrom, List.filterMap_map, List.filterMap_map]
    rfl
  · rw [diagnostics_scan, outcomesFrom, List.filterMap_map, List.filterMap_map]
    rfl

end LoxLexer
