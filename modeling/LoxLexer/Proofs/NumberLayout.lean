import LoxLexer.Proofs.Numerals
import LoxLexer.Proofs.ShortestDecimal
/-!
# How a number is written

A text with a sign and a power of ten stands for a rational (`textValue`), and the text of a finite number for its
shortest decimal, on the number's side of zero.  It is laid out in one of two ways (`Positional`, `Scientific`), with
no zero that could be left out.

Main statement: `number_text`.
-/
namespace LoxLexer

/-! ## Reading a text -/

/-- What digits with perhaps a point stand for. -/
def mantissaValue (cs : List Char) : ℚ :=
  wholeValue (cs.takeWhile Char.isDigit) + fractionValue ((cs.dropWhile Char.isDigit).drop 1)

/-- The power of ten that stands behind an `e`. -/
def exponentOf : List Char → Int
  | '-' :: es => -wholeValue es
  | es => wholeValue es

/-- What a text without a sign stands for. -/
def unsignedValue (cs : List Char) : ℚ :=
  mantissaValue (cs.takeWhile (· ≠ 'e')) * 10 ^ exponentOf ((cs.dropWhile (· ≠ 'e')).drop 1)

/-- What a text stands for. -/
def textValue : List Char → ℚ
  | '-' :: cs => -unsignedValue cs
  | cs => unsignedValue cs

example : textValue "-2.50e-7".toList = -25 / 10 ^ 8 := by decide +kernel

theorem mantissaValue_whole {ds : List Char} (h : ∀ d ∈ ds, d.isDigit = true) : mantissaValue ds = wholeValue ds := by
  rw [mantissaValue, List.takeWhile_eq_self_iff.2 h, List.dropWhile_eq_nil_iff.2 h, List.drop_nil, fractionValue,
    add_zero]

theorem mantissaValue_fraction {ds : List Char} (h : ∀ d ∈ ds, d.isDigit = true) (fs : List Char) :
    mantissaValue (ds ++ '.' :: fs) = wholeValue ds + fractionValue fs := by
  rw [mantissaValue, List.takeWhile_append_of_pos h, List.dropWhile_append_of_pos h,
    List.takeWhile_cons_of_neg (by decide), List.dropWhile_cons_of_neg (by decide), List.append_nil]
  rfl

theorem exponentOf_of_ne {es : List Char} (h : es.head? ≠ some '-') : exponentOf es = wholeValue es := by
  unfold exponentOf
  split
  · exact absurd rfl h
  · rfl

theorem textValue_of_ne {cs : List Char} (h : cs.head? ≠ some '-') : textValue cs = unsignedValue cs := by
  unfold textValue
  split
  · exact absurd rfl h
  · rfl

theorem unsignedValue_of_not_mem {cs : List Char} (h : 'e' ∉ cs) : unsignedValue cs = mantissaValue cs := by
  have hne : ∀ c ∈ cs, decide (c ≠ 'e') = true := fun c hc => decide_eq_true (ne_of_mem_of_not_mem hc h)
  rw [unsignedValue, List.takeWhile_eq_self_iff.2 hne, List.dropWhile_eq_nil_iff.2 hne, List.drop_nil]
  exact mul_one _

theorem unsignedValue_power {cs : List Char} (h : 'e' ∉ cs) (es : List Char) :
    unsignedValue (cs ++ 'e' :: es) = mantissaValue cs * 10 ^ exponentOf es := by
  have hne : ∀ c ∈ cs, decide (c ≠ 'e') = true := fun c hc => decide_eq_true (ne_of_mem_of_not_mem hc h)
  rw [unsignedValue, List.takeWhile_append_of_pos hne, List.dropWhile_append_of_pos hne,
    List.takeWhile_cons_of_neg (by decide), List.dropWhile_cons_of_neg (by decide), List.append_nil]
  rfl

/-! ## Layouts -/

/-- Digits, none of them a zero in front of others. -/
structure Unpadded (ds : List Char) : Prop where
  ne_nil : ds ≠ []
  isDigit : ∀ d ∈ ds, d.isDigit = true
  head : ds = ['0'] ∨ ds.head? ≠ some '0'

/-- Digits, a point and digits, none of them a zero that could be left out. -/
inductive Positional : List Char → Prop
  | mk {ds fs : List Char} (hds : Unpadded ds) (hfs : fs ≠ []) (hf : ∀ d ∈ fs, d.isDigit = true)
      (hlast : fs = ['0'] ∨ fs.getLast? ≠ some '0') : Positional (ds ++ '.' :: fs)

/-- A power of ten, with a sign only if it is negative. -/
inductive IsExponent : List Char → Prop
  | plain {es : List Char} (h : Unpadded es) : IsExponent es
  | negative {es : List Char} (h : Unpadded es) : IsExponent ('-' :: es)

/-- A digit that is not zero, perhaps a point and digits up to one that is not zero, and a power of ten. -/
inductive Scientific : List Char → Prop
  | whole {d : Char} {es : List Char} (hd : d.isDigit = true) (hzero : d ≠ '0') (he : IsExponent es) :
      Scientific (d :: 'e' :: es)
  | fraction {d : Char} {fs es : List Char} (hd : d.isDigit = true) (hzero : d ≠ '0') (hfs : fs ≠ [])
      (hf : ∀ d ∈ fs, d.isDigit = true) (hlast : fs.getLast? ≠ some '0') (he : IsExponent es) :
      Scientific (d :: '.' :: (fs ++ 'e' :: es))

theorem Positional.exists_digit {cs : List Char} (h : Positional cs) : ∃ c rest, cs = c :: rest ∧ c.isDigit = true := by
  cases h with
  | @mk ds fs hds hfs hf hlast =>
    obtain ⟨d, ds, rfl⟩ := List.exists_cons_of_ne_nil hds.ne_nil
    exact ⟨d, _, rfl, hds.isDigit d List.mem_cons_self⟩

theorem Scientific.exists_digit {cs : List Char} (h : Scientific cs) : ∃ c rest, cs = c :: rest ∧ c.isDigit = true := by
  cases h with
  | whole hd hzero he => exact ⟨_, _, rfl, hd⟩
  | fraction hd hzero hfs hf hlast he => exact ⟨_, _, rfl, hd⟩

/-! ## The digits of a natural -/

theorem wholeValue_digits (n : Nat) : wholeValue (digits n) = n := by
  rw [wholeValue_eq, ofDigitChars_digits]

theorem digits_of_lt {n : Nat} (h : n < 10) : digits n = [n.digitChar] := Nat.toDigits_of_lt_base h

theorem digits_of_le {n : Nat} (h : 10 ≤ n) : digits n = digits (n / 10) ++ [(n % 10).digitChar] :=
  Nat.toDigits_of_base_le (by decide) h

theorem digits_ne_nil (n : Nat) : digits n ≠ [] := Nat.toDigits_ne_nil

theorem digitChar_ne_zero : ∀ n < 10, n ≠ 0 → n.digitChar ≠ '0' := by decide

theorem head?_digits_ne (n : Nat) (hn : n ≠ 0) : (digits n).head? ≠ some '0' := by
  induction n using Nat.strongRecOn with
  | ind n ih =>
    rcases Nat.lt_or_ge n 10 with hlt | hge
    · rw [digits_of_lt hlt, List.head?_cons]
      exact fun h => digitChar_ne_zero n hlt hn (Option.some.inj h)
    · have hrest : n / 10 ≠ 0 := by omega
      rw [digits_of_le hge, List.head?_append_of_ne_nil _ (digits_ne_nil _)]
      exact ih (n / 10) (by omega) hrest

theorem getLast?_digits_ne {n : Nat} (hn : n % 10 ≠ 0) : (digits n).getLast? ≠ some '0' := by
  have hlast : (digits n).getLast? = some (n % 10).digitChar := by
    rcases Nat.lt_or_ge n 10 with hlt | hge
    · rw [digits_of_lt hlt, Nat.mod_eq_of_lt hlt]
      rfl
    · rw [digits_of_le hge, List.getLast?_concat]
  rw [hlast]
  exact fun h => digitChar_ne_zero _ (Nat.mod_lt n (by decide)) hn (Option.some.inj h)

theorem unpadded_digits (n : Nat) : Unpadded (digits n) := by
  refine ⟨digits_ne_nil n, fun _ => isDigit_of_mem_digits, ?_⟩
  by_cases hn : n = 0
  · subst hn
    exact .inl rfl
  · exact .inr (head?_digits_ne n hn)

/-! ## Layouts of decimals -/

namespace Decimal

/-- A decimal without a zero at the end of its coefficient, or zero. -/
def IsStripped (d : Decimal) : Prop := d.coefficient % 10 ≠ 0 ∨ d = ⟨0, 0⟩

theorem isStripped_stripZeros (d : Decimal) : d.stripZeros.IsStripped := by
  fun_induction stripZeros d with
  | case1 d _ => exact .inr rfl
  | case2 d _ _ ih => exact ih
  | case3 d _ hmod => exact .inl hmod

theorem getLast?_drop_ne {cs : List Char} {n : Nat} (h : cs.getLast? ≠ some '0') (hn : n < cs.length) :
    (cs.drop n).getLast? ≠ some '0' := by
  rwa [List.getLast?_drop, if_neg (Nat.not_le.2 hn)]

theorem isDigit_of_mem_padded {c n : Nat} {a : Char} (h : a ∈ List.replicate n '0' ++ digits c) : a.isDigit = true :=
  (List.mem_append.1 h).elim isDigit_of_mem_zeros isDigit_of_mem_digits

/-- Filled up to the point by zeros, the digits in front of it are a zero alone or have none in front. -/
theorem unpadded_take {c : Nat} (hc : c ≠ 0) (e : Nat) :
    let padded := List.replicate (e + 2 - (digits c).length) '0' ++ digits c
    Unpadded (padded.take (padded.length - (e + 1))) := by
  intro padded
  have hlength : padded.length = e + 2 - (digits c).length + (digits c).length := by
    rw [List.length_append, List.length_replicate]
  refine ⟨?_, fun a ha => isDigit_of_mem_padded (List.mem_of_mem_take ha), ?_⟩
  · exact List.ne_nil_of_length_pos (by rw [List.length_take]; omega)
  · cases hfill : e + 2 - (digits c).length with
    | zero =>
      have hplaces : padded.length - (e + 1) ≠ 0 := by omega
      have hpadded : padded = digits c := by rw [show padded = _ ++ _ from rfl, hfill]; rfl
      rw [List.head?_take, if_neg hplaces, hpadded]
      exact .inr (head?_digits_ne c hc)
    | succ n =>
      have hplaces : padded.length - (e + 1) = 1 := by omega
      have hpadded : padded = '0' :: (List.replicate n '0' ++ digits c) := by
        rw [show padded = _ ++ _ from rfl, hfill]; rfl
      rw [hplaces, hpadded]
      exact .inl rfl

/-- **Written positionally, a decimal has no zero too many.** -/
theorem positional_of_isStripped {d : Decimal} (h : d.IsStripped) : Positional d.positional := by
  obtain ⟨c, e⟩ := d
  cases e with
  | ofNat e =>
    have hds : Unpadded (digits c ++ List.replicate e '0') := by
      rcases h with hc | hzero
      · have hhead := head?_digits_ne c (fun hzero => hc (congrArg (· % 10) hzero))
        refine ⟨List.append_ne_nil_of_left_ne_nil (digits_ne_nil c) _,
          List.forall_mem_append.2 ⟨fun _ => isDigit_of_mem_digits, fun _ => isDigit_of_mem_zeros⟩, .inr ?_⟩
        rwa [List.head?_append_of_ne_nil _ (digits_ne_nil c)]
      · cases hzero
        exact unpadded_digits 0
    have htext : positional ⟨c, .ofNat e⟩ = (digits c ++ List.replicate e '0') ++ '.' :: ['0'] := rfl
    rw [htext]
    exact .mk hds (List.cons_ne_nil _ _) (List.forall_mem_singleton.2 rfl) (.inl rfl)
  | negSucc e =>
    have hc : c % 10 ≠ 0 := h.resolve_right (fun hzero => by cases hzero)
    let padded := List.replicate (e + 2 - (digits c).length) '0' ++ digits c
    have hlength : e + 2 ≤ padded.length := by
      rw [List.length_append, List.length_replicate]
      omega
    have hlast : padded.getLast? ≠ some '0' := by
      rw [List.getLast?_append_of_ne_nil _ (digits_ne_nil c)]
      exact getLast?_digits_ne hc
    have hplaces : padded.length - (e + 1) < padded.length := by omega
    have hne : padded.drop (padded.length - (e + 1)) ≠ [] := by
      rw [Ne, List.drop_eq_nil_iff]
      exact Nat.not_le.2 hplaces
    exact .mk (unpadded_take (fun hzero => hc (congrArg (· % 10) hzero)) e) hne
      (fun a ha => isDigit_of_mem_padded (List.mem_of_mem_drop ha)) (.inr (getLast?_drop_ne hlast hplaces))

/-- The power of ten as it is written. -/
def powerText (p : Int) : List Char := (if p < 0 then ['-'] else []) ++ digits p.natAbs

theorem exists_scientific (d : Decimal) : ∃ c fs, digits d.coefficient = c :: fs ∧
    d.scientific = (if fs = [] then [c] else [c] ++ '.' :: fs) ++ 'e' :: powerText (d.exponent + fs.length) := by
  obtain ⟨c, fs, hds⟩ := List.exists_cons_of_ne_nil (digits_ne_nil d.coefficient)
  refine ⟨c, fs, hds, ?_⟩
  unfold Decimal.scientific powerText
  rw [hds]
  cases fs <;> simp

theorem isExponent_powerText (p : Int) : IsExponent (powerText p) := by
  unfold powerText
  split_ifs
  · exact .negative (unpadded_digits _)
  · exact .plain (unpadded_digits _)

/-- **Written with a power of ten, a decimal has no zero too many.** -/
theorem scientific_of_isStripped {d : Decimal} (h : d.coefficient % 10 ≠ 0) : Scientific d.scientific := by
  have hhead := head?_digits_ne d.coefficient (fun hzero => h (congrArg (· % 10) hzero))
  have hlast := getLast?_digits_ne h
  have hdigits : ∀ c ∈ digits d.coefficient, c.isDigit = true := fun _ => isDigit_of_mem_digits
  obtain ⟨c, fs, hds, htext⟩ := d.exists_scientific
  rw [hds] at hhead hlast hdigits
  obtain ⟨hc, hf⟩ := List.forall_mem_cons.1 hdigits
  have hzero : c ≠ '0' := fun heq => hhead (congrArg some heq)
  rw [htext]
  split_ifs with hfs
  · exact .whole hc hzero (isExponent_powerText _)
  · rw [List.getLast?_cons_of_ne_nil hfs] at hlast
    exact .fraction hc hzero hfs hf hlast (isExponent_powerText _)

/-! ## Values of layouts -/

theorem exponentOf_powerText (p : Int) : exponentOf (powerText p) = p := by
  unfold powerText
  split_ifs with hp
  · rw [List.singleton_append, exponentOf, wholeValue_digits]
    omega
  · have hhead : (digits p.natAbs).head? ≠ some '-' := by
      intro h
      exact absurd (isDigit_of_mem_digits (List.mem_of_mem_head? h)) (by decide)
    rw [List.nil_append, exponentOf_of_ne hhead, wholeValue_digits]
    omega

theorem exponent_not_mem {ds fs : List Char} (hds : ∀ c ∈ ds, c.isDigit = true) (hfs : ∀ c ∈ fs, c.isDigit = true) :
    'e' ∉ ds ++ '.' :: fs := by
  intro h
  rcases List.mem_append.1 h with h | h
  · exact absurd (hds _ h) (by decide)
  · rcases List.mem_cons.1 h with h | h
    · exact absurd h (by decide)
    · exact absurd (hfs _ h) (by decide)

theorem unsignedValue_positional (d : Decimal) : unsignedValue d.positional = d.value := by
  obtain ⟨ds, fs, htext, -, -, hdigits, hfraction, hvalue⟩ := d.exists_fraction
  rw [htext, unsignedValue_of_not_mem (exponent_not_mem hdigits hfraction), mantissaValue_fraction hdigits,
    ← value_digits, hvalue]

theorem unsignedValue_scientific (d : Decimal) : unsignedValue d.scientific = d.value := by
  have hdigits : ∀ c ∈ digits d.coefficient, c.isDigit = true := fun _ => isDigit_of_mem_digits
  have hwhole := ofDigitChars_digits d.coefficient
  obtain ⟨c, fs, hds, htext⟩ := d.exists_scientific
  rw [hds] at hdigits hwhole
  obtain ⟨hc, hf⟩ := List.forall_mem_cons.1 hdigits
  have hc : ∀ a ∈ [c], a.isDigit = true := List.forall_mem_singleton.2 hc
  have hvalue := value_digits [c] fs
  rw [List.singleton_append, hwhole, value] at hvalue
  have hmantissa : ∀ ms, ms = (if fs = [] then [c] else [c] ++ '.' :: fs) →
      'e' ∉ ms ∧ mantissaValue ms = d.coefficient * 10 ^ (-(fs.length : Int)) := by
    rintro ms rfl
    rw [hvalue]
    split_ifs with hfs
    · rw [hfs, fractionValue, add_zero]
      exact ⟨fun h => absurd (hc _ h) (by decide), mantissaValue_whole hc⟩
    · exact ⟨exponent_not_mem hc hf, mantissaValue_fraction hc fs⟩
  obtain ⟨hpower, hmantissa⟩ := hmantissa _ rfl
  rw [htext, unsignedValue_power hpower, exponentOf_powerText, hmantissa, mul_assoc, ← zpow_add₀ (by norm_num), value]
  congr 2
  omega

end Decimal

/-! ## The text of a number -/

namespace Binary64

variable {x y : Binary64}

/-- The text of a number without its sign. -/
def unsignedChars (x : Binary64) : List Char :=
  if !x.isFinite then ['i', 'n', 'f'] else if x.isPositional then x.shortest.positional else x.shortest.scientific

def signChars (x : Binary64) : List Char := if x.isNegative then ['-'] else []

theorem textChars_eq (hx : x.isNaN = false) : x.textChars = x.signChars ++ x.unsignedChars := by
  rw [textChars, if_neg (Bool.eq_false_iff.1 hx)]
  rfl

/-- A rational in the range that is written without a power of ten. -/
def InPositionalRange (v : ℚ) : Prop := v = 0 ∨ 1 / 10 ^ 4 ≤ |v| ∧ |v| < 10 ^ 16

theorem units_eq_zero_iff_value : x.units = 0 ↔ x.value = 0 := by
  rw [← abs_eq_zero, abs_value, absValue, div_eq_zero_iff, Nat.cast_eq_zero, or_iff_left (pow_ne_zero _ (by norm_num))]

theorem isPositional_iff : x.isPositional = true ↔ InPositionalRange x.value := by
  rw [isPositional, decide_eq_true_iff, InPositionalRange, units_eq_zero_iff_value, abs_value, absValue, le_scaled_iff,
    scaled_lt_iff]

theorem coefficient_shortest (hx : x.isFinite = true) (hpos : x.units ≠ 0) : x.shortest.coefficient % 10 ≠ 0 := by
  refine (Decimal.isStripped_stripZeros _).resolve_right fun hzero => hpos ?_
  have hread := magnitude_shortest hx
  rw [shortest, hzero] at hread
  rw [units, ← hread]
  rfl

/-- **What is written is laid out as its range asks.** -/
theorem unsignedChars_layout (hx : x.isFinite = true) :
    (InPositionalRange x.value → Positional x.unsignedChars) ∧
      (¬ InPositionalRange x.value → Scientific x.unsignedChars) := by
  rw [← isPositional_iff, unsignedChars, if_neg (by simp [hx])]
  constructor
  · intro hpositional
    rw [if_pos hpositional]
    exact Decimal.positional_of_isStripped (Decimal.isStripped_stripZeros _)
  · intro hscientific
    have hpos : x.units ≠ 0 := fun hzero => hscientific (decide_eq_true (.inl hzero))
    rw [if_neg hscientific]
    exact Decimal.scientific_of_isStripped (coefficient_shortest hx hpos)

theorem unsignedValue_unsignedChars (hx : x.isFinite = true) : unsignedValue x.unsignedChars = x.shortest.value := by
  rw [unsignedChars, if_neg (by simp [hx])]
  split_ifs
  · exact Decimal.unsignedValue_positional _
  · exact Decimal.unsignedValue_scientific _

/-- Behind the sign stands none, and a digit only in the text of a finite number. -/
theorem exists_head (x : Binary64) : ∃ c cs, x.unsignedChars = c :: cs ∧ c ≠ '-' ∧ c.isDigit = x.isFinite := by
  cases hfinite : x.isFinite with
  | false => exact ⟨'i', ['n', 'f'], by rw [unsignedChars, hfinite]; rfl, by decide, by decide⟩
  | true =>
    obtain ⟨hpositional, hscientific⟩ := unsignedChars_layout hfinite
    have hdigit : ∃ c cs, x.unsignedChars = c :: cs ∧ c.isDigit = true := by
      by_cases hrange : InPositionalRange x.value
      · exact (hpositional hrange).exists_digit
      · exact (hscientific hrange).exists_digit
    obtain ⟨c, cs, htext, hc⟩ := hdigit
    exact ⟨c, cs, htext, fun hsign => absurd (hsign ▸ hc) (by decide), hc⟩

theorem head?_textChars (hx : x.isNaN = false) : x.textChars.head? = some '-' ↔ x.isNegative = true := by
  obtain ⟨c, cs, htext, hc, -⟩ := x.exists_head
  rw [textChars_eq hx, htext, signChars]
  cases x.isNegative with
  | false => simpa using hc
  | true => simp

theorem textValue_textChars (hx : x.isFinite = true) :
    textValue x.textChars = if x.isNegative then -x.shortest.value else x.shortest.value := by
  obtain ⟨c, cs, htext, hc, -⟩ := x.exists_head
  rw [textChars_eq (isNaN_of_isFinite hx), signChars, ← unsignedValue_unsignedChars hx]
  split_ifs
  · rw [List.singleton_append, textValue]
  · rw [List.nil_append, textValue_of_ne]
    rw [htext, List.head?_cons]
    exact fun h => hc (Option.some.inj h)

theorem abs_textValue (hx : x.isFinite = true) : |textValue x.textChars| = x.shortest.value := by
  rw [textValue_textChars hx]
  split_ifs
  · rw [abs_neg, abs_of_nonneg (Decimal.value_nonneg _)]
  · exact abs_of_nonneg (Decimal.value_nonneg _)

theorem abs_textValue_sub (hx : x.isFinite = true) :
    |textValue x.textChars - x.value| = |x.shortest.value - x.absValue| := by
  rw [textValue_textChars hx, value]
  split_ifs
  · rw [neg_sub_neg, abs_sub_comm]
  · rfl

theorem nearest_shortest (hx : x.isFinite = true) : NearestIndex valueOf x.shortest.value x.magnitude :=
  (isReadBackBy_iff hx).1 (decide_eq_true (magnitude_shortest hx))

/-- What is asked of the text of a finite number: it rounds to the number alone, nothing shorter does and nothing as
short that is closer, and it is laid out as its range asks. -/
structure IsShortestText (x : Binary64) (t : List Char) : Prop where
  readsBack : ∀ y : Binary64, RoundsTo (textValue t) y ∧ (y.isNegative = true ↔ t.head? = some '-') ↔ y = x
  shortest : x.value ≠ 0 → ∃ n, HasDigits (textValue t) n ∧ ∀ (w : ℚ) (m : Nat), RoundsTo w x → HasDigits w m →
    n ≤ m ∧ (m = n → |textValue t - x.value| ≤ |w - x.value|)
  layout : ∃ cs, t = x.signChars ++ cs ∧ (InPositionalRange x.value → Positional cs) ∧
    (¬ InPositionalRange x.value → Scientific cs)

theorem isShortestText_textChars (hx : x.isFinite = true) : IsShortestText x x.textChars := by
  have hnan := isNaN_of_isFinite hx
  have hnearest := nearest_shortest hx
  rw [← abs_textValue hx] at hnearest
  refine ⟨fun y => ⟨fun ⟨hy, hsign⟩ => ?_, ?_⟩, fun hzero => ?_,
    ⟨x.unsignedChars, textChars_eq hnan, unsignedChars_layout hx⟩⟩
  · rw [head?_textChars hnan] at hsign
    exact eq_of_sign_of_magnitude (Bool.eq_iff_iff.2 hsign) (hy.nearestIndex.unique valueOf_strictMono hnearest)
  · rintro rfl
    refine ⟨.of_nearestIndex hnearest hx ?_, (head?_textChars hnan).symm⟩
    rw [abs_textValue_sub hx, abs_textValue hx]
  · have hpos : 0 < x.units := Nat.pos_of_ne_zero fun h => hzero (units_eq_zero_iff_value.1 h)
    obtain ⟨n, hdigits, hle⟩ := shortest_le hx hpos
    refine ⟨n, ?_, fun w m hw hm => ?_⟩
    · rw [textValue_textChars hx]
      split_ifs
      · exact hdigits.neg
      · exact hdigits
    · obtain ⟨hn, hclosest⟩ := hle w m hw.nearestIndex hm
      refine ⟨hn, fun heq => ?_⟩
      rw [abs_textValue_sub hx]
      refine (hclosest heq).trans ?_
      rw [← abs_value]
      exact abs_abs_sub_abs_le w x.value

theorem magnitude_of_infinite (hx : x.isNaN = false) (hinfinite : x.isFinite = false) : x.magnitude = infinity :=
  Nat.le_antisymm (Nat.le_of_not_lt (of_decide_eq_false hx)) (Nat.le_of_not_lt (of_decide_eq_false hinfinite))

/-- **Different numbers have different texts.** -/
theorem textChars_injective (hx : x.isNaN = false) (hy : y.isNaN = false) (h : x.textChars = y.textChars) : x = y := by
  have hsign : x.isNegative = y.isNegative := by
    rw [Bool.eq_iff_iff, ← head?_textChars hx, ← head?_textChars hy, h]
  have hchars : x.unsignedChars = y.unsignedChars := by
    rw [textChars_eq hx, textChars_eq hy, signChars, signChars, hsign] at h
    exact List.append_cancel_left h
  have hfinite : x.isFinite = y.isFinite := by
    obtain ⟨c, cs, hcs, -, hc⟩ := x.exists_head
    obtain ⟨c', cs', hcs', -, hc'⟩ := y.exists_head
    rw [hcs, hcs'] at hchars
    rw [← hc, ← hc', (List.cons.inj hchars).1]
  cases hy' : y.isFinite with
  | false =>
    refine eq_of_sign_of_magnitude hsign ?_
    rw [magnitude_of_infinite hx (hfinite.trans hy'), magnitude_of_infinite hy hy']
  | true =>
    have hx' := hfinite.trans hy'
    have hreads := (isShortestText_textChars hx').readsBack x
    rw [h] at hreads
    exact ((isShortestText_textChars hy').readsBack x).1 (hreads.2 rfl)

end Binary64

/-- **The text of a number is the shortest that reads back**, and no other number has it. -/
theorem number_text :
    (∀ x : Binary64, x.isFinite = true → x.IsShortestText (Literal.number x).text.toList) ∧
      ∀ x y : Binary64, x.isNaN = false → y.isNaN = false →
        (Literal.number x).text = (Literal.number y).text → x = y := by
  have htext : ∀ x : Binary64, (Literal.number x).text.toList = x.textChars := fun x => String.toList_ofList
  refine ⟨fun x hx => ?_, fun x y hx hy h => Binary64.textChars_injective hx hy ?_⟩
  · rw [htext]
    exact Binary64.isShortestText_textChars hx
  · rw [← htext, ← htext, h]

/-- A power of two: the doubles towards zero are so near that the closest decimal of sixteen digits reads as one of them,
and the next one is written.  The two zeros have two texts. -/
theorem number_text_power_of_two :
    let x : Binary64 := ⟨0xbd30000000000000⟩
    x.isFinite = true ∧ x.value = -1 / 2 ^ 44 ∧ (Literal.number x).text = "-5.684341886080802e-14" ∧
      x.IsShortestText "-5.684341886080802e-14".toList ∧ Binary64.isNaN ⟨0⟩ = false ∧
      Binary64.isNaN ⟨0x8000000000000000⟩ = false ∧
      (Literal.number ⟨0⟩).text ≠ (Literal.number ⟨0x8000000000000000⟩).text := by
  intro x
  have hvalue : x.value = -1 / 2 ^ 44 := by decide +kernel
  have htext : (Literal.number x).text = "-5.684341886080802e-14" := by decide +kernel
  refine ⟨by decide, hvalue, htext, ?_, by decide, by decide, fun h => ?_⟩
  · rw [← htext]
    exact number_text.1 x (by decide)
  · exact absurd (number_text.2 _ _ (by decide) (by decide) h) (by decide)

end LoxLexer
