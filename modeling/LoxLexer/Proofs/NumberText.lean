import LoxLexer.Proofs.Listing
import LoxLexer.Proofs.ReadBack
/-!
# Numbers that scan as they are written

A positional text is a numeral, and read again it is the decimal it was written from (`Decimal.exists_fraction`,
`Decimal.toBinary64_ofNumeral_positional`); with the shortest decimal of a number that is the number.  Every other
text has a character that no numeral has: a sign, a power of ten, or the letters of a word.

Main statement: `rescans_iff`.
-/
namespace LoxLexer

/-! ## Numerals -/

theorem isDigit_of_mem_digits {n : Nat} {c : Char} (h : c ∈ digits n) : c.isDigit = true :=
  Nat.isDigit_of_mem_toDigits (by decide) (by decide) h

theorem isDigit_of_mem_zeros {n : Nat} {c : Char} (h : c ∈ List.replicate n '0') : c.isDigit = true := by
  rw [List.eq_of_mem_replicate h]
  rfl

theorem ofDigitChars_digits (n : Nat) : Nat.ofDigitChars 10 (digits n) 0 = n :=
  Nat.ofDigitChars_toDigits (by decide) (by decide)

namespace Decimal

theorem ofNumeral_fraction {ds fs : List Char} (hds : ∀ c ∈ ds, c.isDigit = true) (hfs : ∀ c ∈ fs, c.isDigit = true) :
    ofNumeral (ds ++ '.' :: fs) = ⟨Nat.ofDigitChars 10 (ds ++ fs) 0, -fs.length⟩ := by
  have hdigits : (ds ++ '.' :: fs).filter Char.isDigit = ds ++ fs := by
    rw [List.filter_append, List.filter_cons_of_neg (by decide), List.filter_eq_self.2 hds, List.filter_eq_self.2 hfs]
  have hplaces : ((ds ++ '.' :: fs).dropWhile Char.isDigit).drop 1 = fs := by
    rw [List.dropWhile_append_of_pos hds, List.dropWhile_cons_of_neg (by decide)]
    rfl
  rw [ofNumeral, hdigits, hplaces]

/-- Written positionally, a decimal is a numeral with a fraction, and keeps its value. -/
theorem exists_fraction (d : Decimal) : ∃ ds fs, d.positional = ds ++ '.' :: fs ∧ ds ≠ [] ∧ fs ≠ [] ∧
    (∀ c ∈ ds, c.isDigit = true) ∧ (∀ c ∈ fs, c.isDigit = true) ∧
    value ⟨Nat.ofDigitChars 10 (ds ++ fs) 0, -fs.length⟩ = d.value := by
  obtain ⟨c, e⟩ := d
  cases e with
  | ofNat e =>
    have hds : ∀ a ∈ digits c ++ List.replicate e '0', a.isDigit = true :=
      List.forall_mem_append.2 ⟨fun _ => isDigit_of_mem_digits, fun _ => isDigit_of_mem_zeros⟩
    have hvalue : Nat.ofDigitChars 10 (digits c ++ List.replicate e '0' ++ ['0']) 0 = 10 * (10 ^ e * c) := by
      rw [Nat.ofDigitChars_append, Nat.ofDigitChars_append, ofDigitChars_digits, Nat.ofDigitChars_replicate_zero]
      rfl
    refine ⟨digits c ++ List.replicate e '0', ['0'], rfl, ?_, List.cons_ne_nil _ _, hds,
      List.forall_mem_singleton.2 rfl, ?_⟩
    · exact List.append_ne_nil_of_left_ne_nil Nat.toDigits_ne_nil _
    · rw [hvalue, value, value, Int.ofNat_eq_natCast, zpow_natCast]
      show ((10 * (10 ^ e * c) : Nat) : ℚ) * 10 ^ (-1 : Int) = c * 10 ^ e
      rw [zpow_neg_one]
      push_cast
      field_simp
  | negSucc e =>
    let padded := List.replicate (e + 2 - (digits c).length) '0' ++ digits c
    let places := padded.length - (e + 1)
    have hlength : e + 2 ≤ padded.length := by
      rw [List.length_append, List.length_replicate]
      omega
    have hpadded : ∀ a ∈ padded, a.isDigit = true :=
      List.forall_mem_append.2 ⟨fun _ => isDigit_of_mem_zeros, fun _ => isDigit_of_mem_digits⟩
    have hvalue : Nat.ofDigitChars 10 padded 0 = c := by
      rw [Nat.ofDigitChars_append, Nat.ofDigitChars_replicate_zero, Nat.mul_zero, ofDigitChars_digits]
    have hfraction : (padded.drop places).length = e + 1 := by
      rw [List.length_drop]
      omega
    refine ⟨padded.take places, padded.drop places, rfl, ?_, ?_, fun a ha => hpadded a (List.mem_of_mem_take ha),
      fun a ha => hpadded a (List.mem_of_mem_drop ha), ?_⟩
    · exact List.ne_nil_of_length_pos (by rw [List.length_take]; omega)
    · exact List.ne_nil_of_length_pos (by omega)
    · rw [List.take_append_drop, hvalue, hfraction]
      rfl

theorem matches_positional (d : Decimal) : Shape.Matches .number d.positional := by
  obtain ⟨ds, fs, htext, hds, hfs, hdigits, hfraction, -⟩ := d.exists_fraction
  rw [htext]
  exact .fraction hds hdigits hfs hfraction

/-- **Read again, a positional text is the decimal.** -/
theorem toBinary64_ofNumeral_positional (d : Decimal) : (ofNumeral d.positional).toBinary64 = d.toBinary64 := by
  obtain ⟨ds, fs, htext, -, -, hdigits, hfraction, hvalue⟩ := d.exists_fraction
  rw [htext, ofNumeral_fraction hdigits hfraction]
  exact toBinary64_congr hvalue

theorem exponent_mem_scientific (d : Decimal) : 'e' ∈ d.scientific := by
  simp [scientific]

end Decimal

/-! ## Texts of numbers -/

namespace Binary64

variable {x : Binary64}

theorem isNaN_of_isFinite (hx : x.isFinite = true) : x.isNaN = false :=
  decide_eq_false (Nat.lt_asymm (of_decide_eq_true hx))

/-- The values whose text is a numeral: no sign, no power of ten, no word. -/
structure IsPlain (x : Binary64) : Prop where
  isFinite : x.isFinite = true
  isNegative : x.isNegative = false
  isPositional : x.isPositional = true

theorem IsPlain.textChars_eq (h : x.IsPlain) : x.textChars = x.shortest.positional := by
  have hnan := isNaN_of_isFinite h.isFinite
  rw [textChars, if_neg (Bool.eq_false_iff.1 hnan), if_neg (by simp [h.isNegative]), if_neg (by simp [h.isFinite]),
    if_pos h.isPositional, List.nil_append]

/-- Only a numeral is written with digits and points alone. -/
theorem isPlain_of_textChars (h : ∀ c ∈ x.textChars, c.isDigit = true ∨ c = '.') : x.IsPlain := by
  have hnan : ¬ x.isNaN = true := by
    intro hnan
    rw [textChars, if_pos hnan] at h
    exact absurd (h 'N' (by decide)) (by decide)
  rw [textChars, if_neg hnan] at h
  obtain ⟨hsign, hnumber⟩ := List.forall_mem_append.1 h
  have hnegative : ¬ x.isNegative = true := by
    intro hnegative
    rw [if_pos hnegative] at hsign
    exact absurd (hsign '-' (by decide)) (by decide)
  have hfinite : ¬ (!x.isFinite) = true := by
    intro hinfinite
    rw [if_pos hinfinite] at hnumber
    exact absurd (hnumber 'i' (by decide)) (by decide)
  rw [if_neg hfinite] at hnumber
  have hpositional : x.isPositional = true := by
    by_contra hscientific
    rw [if_neg hscientific] at hnumber
    exact absurd (hnumber 'e' x.shortest.exponent_mem_scientific) (by decide)
  exact ⟨by simpa using hfinite, by simpa using hnegative, hpositional⟩

theorem le_scaled_iff (u k : Nat) : 1 / 10 ^ 4 ≤ (u / 2 ^ k : ℚ) ↔ 1 <<< k ≤ 10000 * u := by
  have hbound : (10 : ℚ) ^ 4 = (10000 : Nat) := by norm_num
  rw [div_le_div_iff₀ (by positivity) (by positivity), Nat.shiftLeft_eq, Nat.mul_comm 10000, hbound]
  norm_cast

theorem scaled_lt_iff (u k : Nat) : (u / 2 ^ k : ℚ) < 10 ^ 16 ↔ u < 10000000000000000 <<< k := by
  have hbound : (10 : ℚ) ^ 16 = (10000000000000000 : Nat) := by norm_num
  rw [div_lt_iff₀ (by positivity), Nat.shiftLeft_eq, hbound]
  norm_cast

theorem units_eq_zero_iff (hsign : x.isNegative = false) : x.units = 0 ↔ x = ⟨0⟩ := by
  constructor
  · intro h
    refine eq_of_magnitude_eq hsign (by decide) ?_
    rw [← nearestMagnitude_unitsOf x.magnitude, ← units, h]
    rfl
  · rintro rfl
    rfl

theorem value_of_not_isNegative (hsign : x.isNegative = false) : x.value = x.units / 2 ^ 1074 := by
  rw [value, hsign, if_neg Bool.false_ne_true, absValue]

theorem isNegative_of_value_pos (h : 0 < x.value) : x.isNegative = false := by
  by_contra hsign
  rw [value, if_pos (by simpa using hsign)] at h
  exact absurd h (not_lt.2 (neg_nonpos.2 x.absValue_nonneg))

/-- **The values that are written as numerals**: zero without a sign, and `10 ^ -4` up to but without `10 ^ 16`. -/
theorem isPlain_iff : x.IsPlain ↔ x = ⟨0⟩ ∨ x.isFinite = true ∧ 1 / 10 ^ 4 ≤ x.value ∧ x.value < 10 ^ 16 := by
  have hpositional : x.isNegative = false → (x.isPositional = true ↔
      x = ⟨0⟩ ∨ 1 / 10 ^ 4 ≤ x.value ∧ x.value < 10 ^ 16) := by
    intro hsign
    rw [isPositional, decide_eq_true_iff, units_eq_zero_iff hsign, value_of_not_isNegative hsign, le_scaled_iff,
      scaled_lt_iff]
  constructor
  · rintro ⟨hfinite, hsign, hrange⟩
    exact ((hpositional hsign).1 hrange).imp_right fun hrange => ⟨hfinite, hrange⟩
  · rintro (rfl | ⟨hfinite, hlower, hupper⟩)
    · exact ⟨by decide, by decide, (hpositional (by decide)).2 (.inl rfl)⟩
    · have hsign : x.isNegative = false := isNegative_of_value_pos (lt_of_lt_of_le (by norm_num) hlower)
      exact ⟨hfinite, hsign, (hpositional hsign).2 (.inr ⟨hlower, hupper⟩)⟩

end Binary64

/-! ## Scanning a number's text -/

theorem count_newline_of_matches_number {cs : List Char} (hm : Shape.Matches .number cs) : cs.count '\n' = 0 :=
  List.count_eq_zero.2 (Shape.newline_not_mem_of_matches_number hm)

theorem outcomesFrom_numeral {cs : List Char} (hm : Shape.Matches .number cs) :
    outcomesFrom 1 cs = [LexUnit.outcome ⟨.number, 1, cs⟩] := by
  rw [outcomesFrom, unitsFrom_of_matches hm, List.map_singleton]

theorem tokens_scan_numeral {cs : List Char} (hm : Shape.Matches .number cs)
    (hv : (Decimal.ofNumeral cs).toBinary64.isFinite = true) : (scan (String.ofList cs)).tokens =
      [⟨.number, String.ofList cs, some (.number (Decimal.ofNumeral cs).toBinary64), 1⟩, endToken 1] := by
  rw [tokens_scan, String.toList_ofList, outcomesFrom_numeral hm, count_newline_of_matches_number hm,
    LexUnit.outcome_finite hv]
  rfl

theorem diagnostics_scan_numeral {cs : List Char} (hm : Shape.Matches .number cs)
    (hv : (Decimal.ofNumeral cs).toBinary64.isFinite = true) : (scan (String.ofList cs)).diagnostics = [] := by
  rw [diagnostics_scan, String.toList_ofList, outcomesFrom_numeral hm, LexUnit.outcome_finite hv]
  rfl

theorem Token.Legible.exists_numeral {t : Token} {x : Binary64} (h : t.Legible) (hx : t.literal = some (.number x)) :
    ∃ cs, Shape.Matches .number cs ∧ t.lexeme = String.ofList cs ∧ x = (Decimal.ofNumeral cs).toBinary64 ∧
      x.isFinite = true := by
  obtain h | ⟨line, rfl⟩ := h
  · cases h with
    | number hm hv line =>
      cases hx
      exact ⟨_, hm, rfl, rfl, hv⟩
    | _ => cases hx
  · cases hx

/-- Scanned, the text of its literal is one number with its bits and nothing else. -/
def Binary64.Rescans (x : Binary64) : Prop :=
  let text := (Literal.number x).text
  (scan text).tokens.map Token.content = [(.number, text, some (.number x)), (.eof, "", none)] ∧
    (scan text).diagnostics = []

theorem Binary64.IsPlain.rescans {x : Binary64} (h : x.IsPlain) : x.Rescans := by
  have htext : (Literal.number x).text = String.ofList x.shortest.positional := by
    rw [Literal.text, Binary64.text, h.textChars_eq]
  have hread : (Decimal.ofNumeral x.shortest.positional).toBinary64 = x := by
    rw [Decimal.toBinary64_ofNumeral_positional, toBinary64_shortest h.isFinite h.isNegative]
  have hfinite : (Decimal.ofNumeral x.shortest.positional).toBinary64.isFinite = true := by rw [hread, h.isFinite]
  have hmatches := x.shortest.matches_positional
  simp only [Rescans, htext]
  refine ⟨?_, diagnostics_scan_numeral hmatches hfinite⟩
  rw [tokens_scan_numeral hmatches hfinite, hread]
  rfl

theorem Binary64.Rescans.isPlain {x : Binary64} (h : x.Rescans) : x.IsPlain := by
  obtain ⟨t, ts, htokens, hcontent, -⟩ := List.map_eq_cons_iff.1 h.1
  obtain ⟨-, hrest⟩ := Prod.mk.inj hcontent
  obtain ⟨hlexeme, hliteral⟩ := Prod.mk.inj hrest
  have hmem : t ∈ (scan (Literal.number x).text).tokens := by
    rw [htokens]
    exact List.mem_cons_self
  obtain ⟨cs, hmatches, hcs, -⟩ := ((wellFormed_tokens_scan _).legible t hmem).exists_numeral hliteral
  have hchars : x.textChars = cs := String.ofList_injective (hlexeme.symm.trans hcs)
  refine Binary64.isPlain_of_textChars fun c hc => ?_
  exact Shape.digit_or_point_of_matches hmatches c (hchars ▸ hc)

/-- **A number scans as it is written exactly in the positional range**, and so does every number that a scan has
found in that range. -/
theorem rescans_iff :
    (∀ x : Binary64, x.Rescans ↔ x = ⟨0⟩ ∨ x.isFinite = true ∧ 1 / 10 ^ 4 ≤ x.value ∧ x.value < 10 ^ 16) ∧
    ∀ (text : String) (t : Token) (x : Binary64), t ∈ (scan text).tokens → t.literal = some (.number x) →
      x.value = 0 ∨ 1 / 10 ^ 4 ≤ x.value ∧ x.value < 10 ^ 16 → x.Rescans := by
  refine ⟨fun x => ⟨fun h => Binary64.isPlain_iff.1 h.isPlain, fun h => (Binary64.isPlain_iff.2 h).rescans⟩, ?_⟩
  intro text t x ht hx hrange
  obtain ⟨cs, -, -, hread, hfinite⟩ := ((wellFormed_tokens_scan text).legible t ht).exists_numeral hx
  have hsign : x.isNegative = false := by rw [hread, Decimal.isNegative_toBinary64]
  refine (Binary64.isPlain_iff.2 ?_).rescans
  rcases hrange with hzero | hrange
  · rw [Binary64.value_of_not_isNegative hsign, div_eq_zero_iff] at hzero
    have hunits : x.units = 0 := by
      rcases hzero with hunits | hpow
      · exact_mod_cast hunits
      · exact absurd hpow (pow_ne_zero _ (by norm_num))
    exact .inl ((Binary64.units_eq_zero_iff hsign).1 hunits)
  · exact .inr ⟨hfinite, hrange⟩

/-- The first double not below `10 ^ -4`, spelled with zeros that its text lacks. -/
theorem rescans_iff_least :
    let t : Token := ⟨.number, "00.00010", some (.number ⟨0x3f1a36e2eb1c432d⟩), 1⟩
    t ∈ (scan "00.00010").tokens ∧ 1 / 10 ^ 4 ≤ Binary64.value ⟨0x3f1a36e2eb1c432d⟩ ∧
      Binary64.value ⟨0x3f1a36e2eb1c432d⟩ < 10 ^ 16 ∧ (Literal.number ⟨0x3f1a36e2eb1c432d⟩).text = "0.0001" ∧
      Binary64.Rescans ⟨0x3f1a36e2eb1c432d⟩ := by
  intro t
  have ht : t ∈ (scan "00.00010").tokens := by decide +kernel
  have hlower : 1 / 10 ^ 4 ≤ Binary64.value ⟨0x3f1a36e2eb1c432d⟩ := by decide +kernel
  have hupper : Binary64.value ⟨0x3f1a36e2eb1c432d⟩ < 10 ^ 16 := by decide +kernel
  exact ⟨ht, hlower, hupper, by decide +kernel, rescans_iff.2 _ t _ ht rfl (.inr ⟨hlower, hupper⟩)⟩

end LoxLexer
