import Mathlib.Data.List.TakeWhile
import LoxLexer.Proofs.CorrectRounding
import LoxLexer.Proofs.NumberText
/-!
# What numerals denote

A numeral denotes a rational, digit by digit (`NumeralDenotes`), and that is the value of the decimal it is read as
(`NumeralDenotes.value_ofNumeral`).

Main statement: `scan_numeral`, a numeral is scanned as the double to which what it denotes rounds.  The same holds of
the rules for numbers and of proper number tokens (`denotes_number_iff`, `proper_number_iff`).
-/
namespace LoxLexer

/-! ## Digits -/

/-- The natural that a digit stands for. -/
def digitValue (c : Char) : Nat := c.toNat - '0'.toNat

/-- What digits in front of a point stand for. -/
def wholeValue : List Char → Nat
  | [] => 0
  | d :: ds => digitValue d * 10 ^ ds.length + wholeValue ds

/-- What digits behind a point stand for. -/
def fractionValue : List Char → ℚ
  | [] => 0
  | d :: ds => (digitValue d + fractionValue ds) / 10

theorem ofDigitChars_cons_eq (d : Char) (ds : List Char) :
    Nat.ofDigitChars 10 (d :: ds) 0 = 10 ^ ds.length * digitValue d + Nat.ofDigitChars 10 ds 0 := by
  rw [Nat.ofDigitChars_cons, Nat.ofDigitChars_eq_ofDigitChars_zero, Nat.mul_zero, Nat.zero_add, digitValue]

theorem wholeValue_eq : ∀ ds : List Char, wholeValue ds = Nat.ofDigitChars 10 ds 0
  | [] => rfl
  | d :: ds => by rw [wholeValue, wholeValue_eq ds, ofDigitChars_cons_eq, Nat.mul_comm]

theorem fractionValue_eq : ∀ fs : List Char, fractionValue fs = Nat.ofDigitChars 10 fs 0 / 10 ^ fs.length
  | [] => by rw [fractionValue, Nat.ofDigitChars_nil, Nat.cast_zero, zero_div]
  | d :: fs => by
    rw [fractionValue, fractionValue_eq fs, ofDigitChars_cons_eq, List.length_cons]
    push_cast
    field_simp
    ring

/-- Without the point, the digits count as many places less. -/
theorem value_digits (ds fs : List Char) :
    Decimal.value ⟨Nat.ofDigitChars 10 (ds ++ fs) 0, -fs.length⟩ = wholeValue ds + fractionValue fs := by
  rw [Decimal.value, wholeValue_eq, fractionValue_eq, Nat.ofDigitChars_append, Nat.ofDigitChars_eq_ofDigitChars_zero,
    zpow_neg, zpow_natCast]
  push_cast
  field_simp

/-! ## Numerals -/

/-- A numeral and the rational that it denotes. -/
inductive NumeralDenotes : List Char → ℚ → Prop
  | whole {ds : List Char} (hne : ds ≠ []) (h : ∀ d ∈ ds, d.isDigit = true) : NumeralDenotes ds (wholeValue ds)
  | fraction {ds fs : List Char} (hds : ds ≠ []) (h : ∀ d ∈ ds, d.isDigit = true) (hfs : fs ≠ [])
      (hf : ∀ d ∈ fs, d.isDigit = true) : NumeralDenotes (ds ++ '.' :: fs) (wholeValue ds + fractionValue fs)

namespace NumeralDenotes

variable {cs : List Char} {v : ℚ}

theorem matches_number (h : NumeralDenotes cs v) : Shape.Matches .number cs := by
  cases h with
  | whole hne h => exact .whole hne h
  | fraction hds h hfs hf => exact .fraction hds h hfs hf

theorem value_ofNumeral (h : NumeralDenotes cs v) : (Decimal.ofNumeral cs).value = v := by
  cases h with
  | whole hne h =>
    have hnumeral : Decimal.ofNumeral cs = ⟨Nat.ofDigitChars 10 (cs ++ []) 0, -(0 : Nat)⟩ := by
      rw [Decimal.ofNumeral, List.filter_eq_self.2 h, List.dropWhile_eq_nil_iff.2 h, List.append_nil]
      rfl
    have hvalue := value_digits cs []
    rw [fractionValue, add_zero] at hvalue
    rw [hnumeral]
    exact hvalue
  | fraction hds h hfs hf => rw [Decimal.ofNumeral_fraction h hf, value_digits]

theorem exists_of_matches (h : Shape.Matches .number cs) : ∃ v, NumeralDenotes cs v := by
  cases h with
  | whole hne h => exact ⟨_, .whole hne h⟩
  | fraction hds h hfs hf => exact ⟨_, .fraction hds h hfs hf⟩

/-- A numeral has a finite value below halfway from the largest one to the next power of two. -/
theorem isFinite_iff (h : NumeralDenotes cs v) :
    (Decimal.ofNumeral cs).toBinary64.isFinite = true ↔ v < 2 ^ 1024 - 2 ^ 970 := by
  rw [Decimal.isFinite_toBinary64, h.value_ofNumeral]

/-- **The value of a numeral** is the one that is not negative and to which what it denotes rounds. -/
theorem roundsTo_iff (h : NumeralDenotes cs v) (hlt : v < 2 ^ 1024 - 2 ^ 970) (y : Binary64) :
    Binary64.RoundsTo v y ∧ y.isNegative = false ↔ y = (Decimal.ofNumeral cs).toBinary64 := by
  have hvalue := h.value_ofNumeral
  constructor
  · rintro ⟨hy, hsign⟩
    have habs : (Decimal.ofNumeral cs).value = |v| := by
      rw [hvalue, abs_of_nonneg (hvalue ▸ Decimal.value_nonneg _)]
    exact Binary64.eq_of_magnitude_eq hsign (Decimal.isNegative_toBinary64 _)
      (Decimal.magnitude_eq_of_roundsTo hy habs).symm
  · rintro rfl
    have hrounds := Decimal.roundsTo_toBinary64 (hvalue ▸ hlt)
    rw [hvalue] at hrounds
    exact ⟨hrounds, Decimal.isNegative_toBinary64 _⟩

end NumeralDenotes

/-! ## Rules for numbers -/

/-- **A number comes to the value to which its numeral rounds, or is too large for one.** -/
theorem denotes_number_iff {cs : List Char} {v : ℚ} (h : NumeralDenotes cs v) (line : Nat) (o : Outcome) :
    Denotes ⟨.number, line, cs⟩ o ↔
      (v < 2 ^ 1024 - 2 ^ 970 ∧ ∃ x : Binary64, Binary64.RoundsTo v x ∧ x.isNegative = false ∧
        o = .token ⟨.number, String.ofList cs, some (.number x), line⟩) ∨
      (2 ^ 1024 - 2 ^ 970 ≤ v ∧ o = .error line .malformedNumber) := by
  constructor
  · intro hd
    cases hd with
    | number hv =>
      have hlt := h.isFinite_iff.1 hv
      obtain ⟨hrounds, hsign⟩ := (h.roundsTo_iff hlt _).2 rfl
      exact .inl ⟨hlt, _, hrounds, hsign, rfl⟩
    | tooLarge hv =>
      have hnot : ¬ v < 2 ^ 1024 - 2 ^ 970 := fun hlt => Bool.eq_false_iff.1 hv (h.isFinite_iff.2 hlt)
      exact .inr ⟨not_lt.1 hnot, rfl⟩
  · rintro (⟨hlt, x, hrounds, hsign, rfl⟩ | ⟨hle, rfl⟩)
    · rw [(h.roundsTo_iff hlt x).1 ⟨hrounds, hsign⟩]
      exact .number (h.isFinite_iff.2 hlt)
    · exact .tooLarge (Bool.eq_false_iff.2 fun hv => not_lt.2 hle (h.isFinite_iff.1 hv))

/-- **A number token is proper** if its lexeme is a numeral and its literal the value to which that rounds. -/
theorem proper_number_iff (lexeme : String) (literal : Option Literal) (line : Nat) :
    Token.Proper ⟨.number, lexeme, literal, line⟩ ↔
      ∃ (v : ℚ) (x : Binary64), NumeralDenotes lexeme.toList v ∧ v < 2 ^ 1024 - 2 ^ 970 ∧ Binary64.RoundsTo v x ∧
        x.isNegative = false ∧ literal = some (.number x) := by
  constructor
  · intro ht
    cases ht with
    | @number cs hm hv =>
      obtain ⟨v, hdenotes⟩ := NumeralDenotes.exists_of_matches hm
      have hlt := hdenotes.isFinite_iff.1 hv
      obtain ⟨hrounds, hsign⟩ := (hdenotes.roundsTo_iff hlt _).2 rfl
      rw [String.toList_ofList]
      exact ⟨v, _, hdenotes, hlt, hrounds, hsign, rfl⟩
  · rintro ⟨v, x, hdenotes, hlt, hrounds, hsign, rfl⟩
    have hproper := Token.Proper.number hdenotes.matches_number (hdenotes.isFinite_iff.2 hlt) line
    rw [(hdenotes.roundsTo_iff hlt x).1 ⟨hrounds, hsign⟩]
    rwa [String.ofList_toList] at hproper

/-! ## Scans of numerals -/

theorem scan_numeral_tooLarge {cs : List Char} (hm : Shape.Matches .number cs)
    (hv : (Decimal.ofNumeral cs).toBinary64.isFinite = false) :
    (scan (String.ofList cs)).tokens = [endToken 1] ∧
      (scan (String.ofList cs)).diagnostics = [⟨1, "", .malformedNumber⟩] := by
  have hline : LexUnit.endLine ⟨.number, 1, cs⟩ = 1 := LexUnit.endLine_eq_line (.inl hm) (.inl rfl)
  rw [tokens_scan, diagnostics_scan, String.toList_ofList, outcomesFrom_numeral hm, count_newline_of_matches_number hm,
    LexUnit.outcome_tooLarge hv, hline]
  exact ⟨rfl, rfl⟩

/-- **A numeral has the value to which what it denotes rounds**, and no value from halfway above the largest one. -/
theorem scan_numeral {cs : List Char} {v : ℚ} (h : NumeralDenotes cs v) :
    let s := scan (String.ofList cs)
    (2 ^ 1024 - 2 ^ 970 ≤ v → s.tokens = [endToken 1] ∧ s.diagnostics = [⟨1, "", .malformedNumber⟩]) ∧
    (v < 2 ^ 1024 - 2 ^ 970 → ∃ x : Binary64,
      s.tokens = [⟨.number, String.ofList cs, some (.number x), 1⟩, endToken 1] ∧ s.diagnostics = [] ∧
      ∀ y : Binary64, Binary64.RoundsTo v y ∧ y.isNegative = false ↔ y = x) := by
  intro s
  constructor
  · intro hle
    exact scan_numeral_tooLarge h.matches_number (Bool.eq_false_iff.2 fun hv => not_lt.2 hle (h.isFinite_iff.1 hv))
  · intro hlt
    have hfinite := h.isFinite_iff.2 hlt
    exact ⟨_, tokens_scan_numeral h.matches_number hfinite, diagnostics_scan_numeral h.matches_number hfinite,
      h.roundsTo_iff hlt⟩

/-- An odd integer of 54 bits, halfway between two doubles, and a power of ten that is too large. -/
theorem scan_numeral_halfway :
    let cs := "09007199254740993.00".toList
    let large := '1' :: List.replicate 309 '0'
    NumeralDenotes cs 9007199254740993 ∧ (9007199254740993 : ℚ) < 2 ^ 1024 - 2 ^ 970 ∧
      (scan (String.ofList cs)).tokens =
        [⟨.number, String.ofList cs, some (.number ⟨0x4340000000000000⟩), 1⟩, endToken 1] ∧
      (scan (String.ofList cs)).diagnostics = [] ∧
      Binary64.RoundsTo 9007199254740993 ⟨0x4340000000000000⟩ ∧
      NumeralDenotes large (10 ^ 309) ∧ (2 ^ 1024 - 2 ^ 970 : ℚ) ≤ 10 ^ 309 ∧
      (scan (String.ofList large)).tokens = [endToken 1] ∧
      (scan (String.ofList large)).diagnostics = [⟨1, "", .malformedNumber⟩] := by
  intro cs large
  have hcs : NumeralDenotes cs 9007199254740993 := by
    have h := @NumeralDenotes.fraction "09007199254740993".toList "00".toList (by decide)
      (List.all_eq_true.1 (by decide)) (by decide) (List.all_eq_true.1 (by decide))
    have hvalue : wholeValue "09007199254740993".toList + fractionValue "00".toList = 9007199254740993 := by
      decide +kernel
    rwa [hvalue] at h
  have hlarge : NumeralDenotes large (10 ^ 309) := by
    have h := @NumeralDenotes.whole large (List.cons_ne_nil _ _) (List.all_eq_true.1 (by decide +kernel))
    have hvalue : wholeValue large = 10 ^ 309 := by decide +kernel
    rwa [hvalue, Nat.cast_pow, Nat.cast_ofNat] at h
  have hlt : (9007199254740993 : ℚ) < 2 ^ 1024 - 2 ^ 970 := by decide +kernel
  have hle : (2 ^ 1024 - 2 ^ 970 : ℚ) ≤ 10 ^ 309 := by decide +kernel
  obtain ⟨x, htokens, hdiagnostics, hrounds⟩ := (scan_numeral hcs).2 hlt
  have hread : (scan (String.ofList cs)).tokens =
      [⟨.number, String.ofList cs, some (.number ⟨0x4340000000000000⟩), 1⟩, endToken 1] := by decide +kernel
  have hx : x = ⟨0x4340000000000000⟩ := by
    have := htokens.symm.trans hread
    simpa using this
  subst hx
  exact ⟨hcs, hlt, hread, hdiagnostics, ((hrounds _).2 rfl).1, hlarge, hle, (scan_numeral hlarge).1 hle⟩

end LoxLexer
