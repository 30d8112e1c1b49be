import LoxLexer.Proofs.NumberText
/-!
# Equality of tokens

Tokens compare numbers as numbers.  So what is no number differs from itself, the two zeros are the same, and equality
of tokens is symmetric and transitive, but neither reflexive nor fine enough to tell all texts apart.  In the tokens of
scans neither happens: their literals follow from kind and lexeme, and no literal is a zero with a sign or no number
at all.  There equal tokens are the same token (`Token.Legible.eqv_iff`).

Main statement: `eqv_equivalence`.
-/
namespace LoxLexer

/-! ## Numbers -/

namespace Binary64

variable {x y z : Binary64}

theorem eqv_iff : x.eqv y = true ↔
    x.isNaN = false ∧ y.isNaN = false ∧ (x = y ∨ x.magnitude = 0 ∧ y.magnitude = 0) := by
  simp [eqv, and_assoc]

theorem eqv_symm (h : x.eqv y = true) : y.eqv x = true := by
  obtain ⟨hx, hy, h⟩ := eqv_iff.1 h
  exact eqv_iff.2 ⟨hy, hx, h.imp Eq.symm And.symm⟩

theorem eqv_trans (hxy : x.eqv y = true) (hyz : y.eqv z = true) : x.eqv z = true := by
  obtain ⟨hx, -, h⟩ := eqv_iff.1 hxy
  obtain ⟨-, hz, h'⟩ := eqv_iff.1 hyz
  refine eqv_iff.2 ⟨hx, hz, ?_⟩
  rcases h with rfl | ⟨hzero, hy⟩
  · exact h'
  · rcases h' with rfl | ⟨-, hzero'⟩
    · exact .inr ⟨hzero, hy⟩
    · exact .inr ⟨hzero, hzero'⟩

theorem eqv_self_iff : x.eqv x = true ↔ x.isNaN = false := by
  simp [eqv_iff]

end Binary64

/-! ## Literals -/

namespace Literal

variable {a b c : Option Literal}

/-- What is no number is equal to itself and to nothing else, present or absent. -/
theorem eqv?_iff : eqv? a b = true ↔ (a = b ∧ ∀ x, a ≠ some (.number x)) ∨
    ∃ x y, a = some (.number x) ∧ b = some (.number y) ∧ x.eqv y = true := by
  rcases a with _ | (s | x) <;> rcases b with _ | (t | y) <;> simp [eqv?, eqv]

theorem eqv?_symm (h : eqv? a b = true) : eqv? b a = true := by
  rcases eqv?_iff.1 h with ⟨rfl, -⟩ | ⟨x, y, rfl, rfl, hxy⟩
  · exact h
  · exact Binary64.eqv_symm hxy

theorem eqv?_trans (hab : eqv? a b = true) (hbc : eqv? b c = true) : eqv? a c = true := by
  rcases eqv?_iff.1 hab with ⟨rfl, -⟩ | ⟨x, y, rfl, rfl, hxy⟩
  · exact hbc
  · rcases eqv?_iff.1 hbc with ⟨rfl, -⟩ | ⟨y', z, hy', rfl, hyz⟩
    · exact hab
    · cases hy'
      exact Binary64.eqv_trans hxy hyz

theorem eqv?_self_iff : eqv? a a = true ↔ ∀ x, a = some (.number x) → x.isNaN = false := by
  constructor
  · rintro h x rfl
    exact Binary64.eqv_self_iff.1 h
  · intro h
    by_cases hx : ∃ x, a = some (.number x)
    · obtain ⟨x, rfl⟩ := hx
      exact Binary64.eqv_self_iff.2 (h x rfl)
    · exact eqv?_iff.2 (.inl ⟨rfl, fun x he => hx ⟨x, he⟩⟩)

end Literal

/-! ## Tokens -/

namespace Token

variable {a b c : Token}

theorem eqv_iff : a.eqv b = true ↔
    a.kind = b.kind ∧ a.lexeme = b.lexeme ∧ Literal.eqv? a.literal b.literal = true ∧ a.line = b.line := by
  simp [eqv, and_assoc]

theorem eqv_symm (h : a.eqv b = true) : b.eqv a = true := by
  obtain ⟨hkind, hlexeme, hliteral, hline⟩ := eqv_iff.1 h
  exact eqv_iff.2 ⟨hkind.symm, hlexeme.symm, Literal.eqv?_symm hliteral, hline.symm⟩

theorem eqv_trans (hab : a.eqv b = true) (hbc : b.eqv c = true) : a.eqv c = true := by
  obtain ⟨hkind, hlexeme, hliteral, hline⟩ := eqv_iff.1 hab
  obtain ⟨hkind', hlexeme', hliteral', hline'⟩ := eqv_iff.1 hbc
  exact eqv_iff.2 ⟨hkind.trans hkind', hlexeme.trans hlexeme', Literal.eqv?_trans hliteral hliteral',
    hline.trans hline'⟩

theorem eqv_self_iff : a.eqv a = true ↔ ∀ x, a.literal = some (.number x) → x.isNaN = false := by
  rw [eqv_iff, Literal.eqv?_self_iff]
  simp

namespace Legible

/-- Kind, lexeme and line say all of a token. -/
theorem eq_iff (ha : a.Legible) (hb : b.Legible) : a = b ↔ a.kind = b.kind ∧ a.lexeme = b.lexeme ∧ a.line = b.line := by
  constructor
  · rintro rfl
    exact ⟨rfl, rfl, rfl⟩
  · rintro ⟨hkind, hlexeme, hline⟩
    have hliteral : a.literal = b.literal := by rw [ha.literal_eq, hb.literal_eq, hkind, hlexeme]
    cases a
    cases b
    simp_all

theorem isNaN_of_literal (h : a.Legible) {x : Binary64} (hx : a.literal = some (.number x)) : x.isNaN = false := by
  obtain ⟨cs, -, -, -, hfinite⟩ := h.exists_numeral hx
  exact Binary64.isNaN_of_isFinite hfinite

/-- **Tokens that scans can return are equal only to themselves.** -/
theorem eqv_iff (ha : a.Legible) (hb : b.Legible) : a.eqv b = true ↔ a = b := by
  constructor
  · intro h
    obtain ⟨hkind, hlexeme, -, hline⟩ := Token.eqv_iff.1 h
    exact (ha.eq_iff hb).2 ⟨hkind, hlexeme, hline⟩
  · rintro rfl
    exact eqv_self_iff.2 fun x hx => ha.isNaN_of_literal hx

end Legible
end Token

/-- **Equality of tokens** is symmetric and transitive, and reflexive but for what is no number.  On the tokens of scans
it asks for kind, lexeme and line alone, and tokens that are equal there have one literal, bit for bit, and one text;
two zeros show that elsewhere they need not. -/
theorem eqv_equivalence :
    (∀ a b : Token, a.eqv b = true → b.eqv a = true) ∧
    (∀ a b c : Token, a.eqv b = true → b.eqv c = true → a.eqv c = true) ∧
    (∀ a : Token, a.eqv a = true ↔ ∀ x, a.literal = some (.number x) → x.isNaN = false) ∧
    (∀ (s s' : String) (a b : Token), a ∈ (scan s).tokens → b ∈ (scan s').tokens →
      (a.eqv b = true ↔ a.kind = b.kind ∧ a.lexeme = b.lexeme ∧ a.line = b.line) ∧
      (a.eqv b = true → a.literal = b.literal ∧ a.text = b.text)) ∧
    ∃ a b : Token, a.literal = some (.number ⟨0⟩) ∧ b.literal = some (.number ⟨0x8000000000000000⟩) ∧
      a.eqv b = true ∧ a.text ≠ b.text := by
  refine ⟨fun _ _ => Token.eqv_symm, fun _ _ _ => Token.eqv_trans, fun _ => Token.eqv_self_iff, ?_, ?_⟩
  · intro s s' a b ha hb
    have ha : a.Legible := (wellFormed_tokens_scan s).legible a ha
    have hb : b.Legible := (wellFormed_tokens_scan s').legible b hb
    refine ⟨(ha.eqv_iff hb).trans (ha.eq_iff hb), fun h => ?_⟩
    obtain rfl := (ha.eqv_iff hb).1 h
    exact ⟨rfl, rfl⟩
  · exact ⟨⟨.number, "0", some (.number ⟨0⟩), 1⟩, ⟨.number, "0", some (.number ⟨0x8000000000000000⟩), 1⟩, rfl, rfl,
      by decide, by decide +kernel⟩

/-- Three zeros, the one in the middle with a sign; and a number that two scans find in different company. -/
theorem eqv_equivalence_zeros :
    let zero : Token := ⟨.number, "0.0", some (.number ⟨0⟩), 1⟩
    let negative : Token := ⟨.number, "0.0", some (.number ⟨0x8000000000000000⟩), 1⟩
    zero.eqv negative = true ∧ negative.eqv zero = true ∧ zero.eqv zero = true ∧
      zero ∈ (scan "0.0 @").tokens ∧ zero ∈ (scan "\t0.0// 0").tokens ∧ zero.literal = some (.number ⟨0⟩) ∧
      zero.text = "Number 0.0 0.0" := by
  intro zero negative
  obtain ⟨hsymm, htrans, -, hscans, -⟩ := eqv_equivalence
  have hsigned : zero.eqv negative = true := by decide
  have hunsigned : negative.eqv zero = true := hsymm _ _ hsigned
  have hself : zero.eqv zero = true := htrans _ _ _ hsigned hunsigned
  have hfirst : zero ∈ (scan "0.0 @").tokens := by decide +kernel
  have hsecond : zero ∈ (scan "\t0.0// 0").tokens := by decide +kernel
  obtain ⟨hliteral, htext⟩ := (hscans _ _ _ _ hfirst hsecond).2 hself
  exact ⟨hsigned, hunsigned, hself, hfirst, hsecond, hliteral, htext.trans (by decide +kernel)⟩

end LoxLexer
