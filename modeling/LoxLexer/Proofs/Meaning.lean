import LoxLexer.Proofs.Units
/-!
# What a unit denotes

The rules of the language for what a unit comes to, as a relation (`Denotes`).  Main statement: `denotes_iff`, a unit
of a text denotes its outcome and nothing else.
-/
namespace LoxLexer

/-! ## Words -/

theorem ofWord_spelling (k : Keyword) : TokenKind.ofWord k.spelling = .keyword k := by
  cases k <;> decide

theorem ofWord_eq_identifier {w : String} (h : ∀ k : Keyword, k.spelling ≠ w) : TokenKind.ofWord w = .identifier := by
  have hnone : Keyword.ofWord? w = none := List.find?_eq_none.2 (fun k _ => by simpa using h k)
  rw [TokenKind.ofWord, hnone]
  rfl

/-! ## What a unit denotes -/

/-- The rules by which a unit comes to nothing, to a token or to an error.  A word is its reserved word if there is
one; a number needs a finite value (`denotes_number_iff` says it by what the numeral denotes); an open string is
reported where the text ends. -/
inductive Denotes : LexUnit → Outcome → Prop
  | blank {line : Nat} {cs : List Char} : Denotes ⟨.blank, line, cs⟩ .nothing
  | comment {line : Nat} {cs : List Char} : Denotes ⟨.comment, line, cs⟩ .nothing
  | operator {line : Nat} {cs : List Char} (op : Operator) :
      Denotes ⟨.operator op, line, cs⟩ (.token ⟨.operator op, String.ofList cs, none, line⟩)
  | keyword {line : Nat} (k : Keyword) :
      Denotes ⟨.word, line, k.spelling.toList⟩ (.token ⟨.keyword k, k.spelling, none, line⟩)
  | identifier {line : Nat} {w : String} (h : ∀ k : Keyword, k.spelling ≠ w) :
      Denotes ⟨.word, line, w.toList⟩ (.token ⟨.identifier, w, none, line⟩)
  | string {line : Nat} {contents : List Char} :
      Denotes ⟨.string, line, '"' :: (contents ++ ['"'])⟩
        (.token ⟨.string, String.ofList ('"' :: (contents ++ ['"'])), some (.string (String.ofList contents)), line⟩)
  | number {line : Nat} {cs : List Char} (h : (Decimal.ofNumeral cs).toBinary64.isFinite = true) :
      Denotes ⟨.number, line, cs⟩
        (.token ⟨.number, String.ofList cs, some (.number (Decimal.ofNumeral cs).toBinary64), line⟩)
  | tooLarge {line : Nat} {cs : List Char} (h : (Decimal.ofNumeral cs).toBinary64.isFinite = false) :
      Denotes ⟨.number, line, cs⟩ (.error line .malformedNumber)
  | openString {line : Nat} {cs : List Char} :
      Denotes ⟨.openString, line, cs⟩ (.error (line + cs.count '\n') .unterminatedString)
  | bad {line : Nat} {c : Char} : Denotes ⟨.bad c, line, [c]⟩ (.error line (.unexpectedCharacter c))

theorem denotes_outcome {u : LexUnit} (h : u.Lawful) : Denotes u u.outcome := by
  have hend := LexUnit.endLine_eq_line h
  obtain ⟨shape, line, chars⟩ := u
  cases shape with
  | string =>
    obtain hm | ⟨c, -, hs, -⟩ := h
    · obtain ⟨contents, -, rfl⟩ := Shape.matches_string_iff.1 hm
      simp only [LexUnit.outcome, LexUnit.lexeme, List.tail_cons, List.dropLast_concat]
      exact .string
    · cases hs
  | word =>
    by_cases hk : ∃ k : Keyword, k.spelling = String.ofList chars
    · obtain ⟨k, hk⟩ := hk
      obtain rfl : chars = k.spelling.toList := by rw [hk, String.toList_ofList]
      simp only [LexUnit.outcome, LexUnit.lexeme, String.ofList_toList, ofWord_spelling]
      exact .keyword k
    · have hk : ∀ k : Keyword, k.spelling ≠ String.ofList chars := fun k he => hk ⟨k, he⟩
      have hd : Denotes ⟨.word, line, (String.ofList chars).toList⟩
          (.token ⟨.identifier, String.ofList chars, none, line⟩) := .identifier hk
      rw [String.toList_ofList] at hd
      simp only [LexUnit.outcome, LexUnit.lexeme, ofWord_eq_identifier hk]
      exact hd
  | number =>
    cases hv : (Decimal.ofNumeral chars).toBinary64.isFinite with
    | true =>
      rw [LexUnit.outcome_finite hv]
      exact .number hv
    | false =>
      rw [LexUnit.outcome_tooLarge hv, hend (.inl rfl)]
      exact .tooLarge hv
  | bad b =>
    obtain hm | ⟨c, -, hs, hc⟩ := h
    · cases hm
    · cases hs
      cases hc
      show Denotes _ (.error (LexUnit.endLine ⟨.bad b, line, [b]⟩) (.unexpectedCharacter b))
      rw [hend (.inr ⟨b, rfl⟩)]
      exact .bad
  | operator op => exact .operator op
  | blank => exact .blank
  | comment => exact .comment
  | openString => exact .openString

/-- **A unit denotes what it comes to**, and nothing else. -/
theorem denotes_iff {u : LexUnit} {o : Outcome} (h : u.Lawful) : Denotes u o ↔ o = u.outcome := by
  constructor
  · have hend := LexUnit.endLine_eq_line h
    intro hd
    cases hd with
    | keyword k => simp only [LexUnit.outcome, LexUnit.lexeme, String.ofList_toList, ofWord_spelling]
    | identifier hk => simp only [LexUnit.outcome, LexUnit.lexeme, String.ofList_toList, ofWord_eq_identifier hk]
    | string => simp only [LexUnit.outcome, LexUnit.lexeme, List.tail_cons, List.dropLast_concat]
    | number hv => rw [LexUnit.outcome_finite hv]
    | tooLarge hv => rw [LexUnit.outcome_tooLarge hv, hend (.inl rfl)]
    | bad => simp only [LexUnit.outcome, hend (.inr ⟨_, rfl⟩)]
    | _ => rfl
  · rintro rfl
    exact denotes_outcome h

/-- A token has the characters and the line of its unit. -/
theorem Denotes.token_eq {u : LexUnit} {t : Token} (h : Denotes u (.token t)) :
    t.line = u.line ∧ t.lexeme.toList = u.chars := by
  cases h with
  | keyword k => exact ⟨rfl, rfl⟩
  | identifier hk => exact ⟨rfl, rfl⟩
  | _ => exact ⟨rfl, String.toList_ofList⟩

/-- An error is on the line of its unit, or behind the open string that it reports. -/
theorem Denotes.error_line {u : LexUnit} {line : Nat} {e : LexError} (h : Denotes u (.error line e)) :
    (e = .unterminatedString ∧ u.shape = .openString ∧ line = u.endLine) ∨
      (e ≠ .unterminatedString ∧ line = u.line) := by
  cases h with
  | openString => exact .inl ⟨rfl, rfl, rfl⟩
  | tooLarge _ => exact .inr ⟨by simp, rfl⟩
  | bad => exact .inr ⟨by simp, rfl⟩

end LoxLexer
