import LoxLexer.Diagnostic
import LoxLexer.Proofs.Separators
/-!
# What the text of a diagnostic says

The location of a diagnostic stands in its text as it is, and it may hold anything, brackets, colons and whole messages
included.  Still the text says where it begins and where it ends: the line before it ends at the first bracket
(`not_mem_toString`), and of two messages neither ends the other (`LexError.sameKind_of_suffix`), so a location cannot
take over a part of the message.  All that the text does not say is the character of an unexpected character.

Main statement: `diagnostic_text_eq_iff`.
-/
namespace LoxLexer

/-! ## Messages -/

namespace LexError

/-- The same kind of error, about whichever character. -/
inductive SameKind : LexError → LexError → Prop
  | unexpectedCharacter (c c' : Char) : SameKind (unexpectedCharacter c) (unexpectedCharacter c')
  | unterminatedString : SameKind unterminatedString unterminatedString
  | malformedNumber : SameKind malformedNumber malformedNumber

variable {e e' : LexError}

theorem SameKind.message_eq (h : e.SameKind e') : e.message = e'.message := by
  cases h <;> rfl

/-- Of two messages one ends the other only if they say the same. -/
theorem sameKind_of_suffix (h : e.message.toList <:+ e'.message.toList) : e.SameKind e' := by
  cases e with
  | unexpectedCharacter c =>
    cases e' with
    | unexpectedCharacter c' => exact .unexpectedCharacter c c'
    | _ =>
      simp only [message] at h
      exact absurd h (by decide)
  | unterminatedString =>
    cases e' with
    | unterminatedString => exact .unterminatedString
    | _ =>
      simp only [message] at h
      exact absurd h (by decide)
  | malformedNumber =>
    cases e' with
    | malformedNumber => exact .malformedNumber
    | _ =>
      simp only [message] at h
      exact absurd h (by decide)

theorem sameKind_iff_message_eq : e.SameKind e' ↔ e.message = e'.message := by
  constructor
  · exact SameKind.message_eq
  · intro h
    exact sameKind_of_suffix (h ▸ List.suffix_refl _)

/-- An error is its kind and its character, if it has one. -/
theorem eq_iff_sameKind : e = e' ↔ e.SameKind e' ∧ e.character? = e'.character? := by
  constructor
  · rintro rfl
    exact ⟨sameKind_iff_message_eq.2 rfl, rfl⟩
  · rintro ⟨hkind, hcharacter⟩
    cases hkind with
    | unexpectedCharacter c c' => rw [Option.some.inj hcharacter]
    | unterminatedString => rfl
    | malformedNumber => rfl

end LexError

/-! ## Diagnostics -/

namespace Diagnostic

variable {d d' : Diagnostic}

theorem text_eq (d : Diagnostic) :
    d.text = "[line " ++ (toString d.line ++ "] Error" ++ (d.location ++ ": " ++ d.error.message)) := by
  simp [text, String.append_assoc]

/-- **The text of a diagnostic says its line, its location and its message.** -/
theorem text_eq_iff : d.text = d'.text ↔
    d.line = d'.line ∧ d.location = d'.location ∧ d.error.message = d'.error.message := by
  constructor
  · intro h
    rw [text_eq, text_eq, String.append_right_inj] at h
    have hbracket : ∀ n : Nat, ']' ∉ (toString n).toList := not_mem_toString (by decide)
    obtain ⟨hline, h⟩ := append_separator_inj rfl (hbracket _) (hbracket _) h
    -- nothing is known of the location, so it is found from both sides
    have hends : ∀ {e e' : LexError}, e.message.toList <:+ e'.message.toList → e.message = e'.message :=
      fun hsuffix => (LexError.sameKind_of_suffix hsuffix).message_eq
    obtain ⟨hlocation, hmessage⟩ := append_ending_inj hends hends h
    exact ⟨toString_injective (String.toList_inj.2 hline), (String.append_left_inj _).1 hlocation, hmessage⟩
  · rintro ⟨hline, hlocation, hmessage⟩
    rw [text_eq, text_eq, hline, hlocation, hmessage]

end Diagnostic

/-- **The text of a diagnostic says all of it but a character.**  Two texts are equal exactly if line, location and
kind of error are, whatever the locations hold; the character of the error is all it takes to tell diagnostics of one
text apart. -/
theorem diagnostic_text_eq_iff (d d' : Diagnostic) :
    (d.text = d'.text ↔ d.line = d'.line ∧ d.location = d'.location ∧ d.error.SameKind d'.error) ∧
    (d = d' ↔ d.text = d'.text ∧ d.error.character? = d'.error.character?) := by
  have htext : d.text = d'.text ↔ d.line = d'.line ∧ d.location = d'.location ∧ d.error.SameKind d'.error := by
    rw [Diagnostic.text_eq_iff, LexError.sameKind_iff_message_eq]
  refine ⟨htext, ?_, ?_⟩
  · rintro rfl
    exact ⟨rfl, rfl⟩
  · rintro ⟨h, hcharacter⟩
    obtain ⟨hline, hlocation, hkind⟩ := htext.1 h
    have herror : d.error = d'.error := LexError.eq_iff_sameKind.2 ⟨hkind, hcharacter⟩
    cases d
    cases d'
    simp_all

/-- A location that holds a message of its own. -/
example : (⟨7, ": Unexpected character.", .unterminatedString⟩ : Diagnostic).text =
    "[line 7] Error: Unexpected character.: Unterminated string." := by
  decide +kernel

end LoxLexer
