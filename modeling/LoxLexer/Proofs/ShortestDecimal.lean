import LoxLexer.Proofs.CorrectRounding
import LoxLexer.Proofs.ReadBack
/-!
# The shortest decimal is shortest

The cuts of the expansion after one digit, after two and so on are the two decimals of that length around the value,
and every decimal with as few digits lies beyond one of them (`Binary64.isBeyondCut_of_digits`).  What lies between
a decimal and the double that it reads as reads as that double too; so the first cut that reads back has the fewest
digits, and the closer of two the least error.

Main statement: `Binary64.shortest_le`.
-/
namespace LoxLexer

/-- A decimal with at most `n` significant digits. -/
def HasDigits (v : ℚ) (n : Nat) : Prop := ∃ c e : Int, |c| < 10 ^ n ∧ v = c * 10 ^ e

theorem HasDigits.neg {v : ℚ} {n : Nat} (h : HasDigits v n) : HasDigits (-v) n := by
  obtain ⟨c, e, hc, rfl⟩ := h
  exact ⟨-c, e, by rwa [abs_neg], by rw [Int.cast_neg, neg_mul]⟩

theorem HasDigits.abs {v : ℚ} {n : Nat} (h : HasDigits v n) : ∃ (c : Nat) (e : Int), c < 10 ^ n ∧ |v| = c * 10 ^ e := by
  obtain ⟨c, e, hc, rfl⟩ := h
  refine ⟨c.natAbs, e, ?_, ?_⟩
  · zify
    exact hc
  · rw [abs_mul, abs_of_pos (zpow_pos (by norm_num : (0 : ℚ) < 10) e), Nat.cast_natAbs, Int.cast_abs]

namespace Decimal

theorem hasDigits_value {c : Nat} {n : Nat} (hn : 0 < n) (hc : c ≤ 10 ^ n) (e : Int) : HasDigits (value ⟨c, e⟩) n := by
  rcases Nat.lt_or_eq_of_le hc with hlt | rfl
  · refine ⟨c, e, ?_, rfl⟩
    rw [Nat.abs_cast]
    exact_mod_cast hlt
  · refine ⟨1, n + e, ?_, ?_⟩
    · rw [abs_one]
      exact one_lt_pow₀ (by norm_num) hn.ne'
    · rw [value, zpow_add₀ (by norm_num), zpow_natCast]
      push_cast
      rw [one_mul]

end Decimal

namespace Binary64

variable {x : Binary64}

theorem isReadBackBy_iff (hx : x.isFinite = true) {d : Decimal} :
    x.isReadBackBy d = true ↔ NearestIndex valueOf d.value x.magnitude := by
  obtain ⟨m, hnearest, hmagnitude⟩ := d.exists_nearest
  have hlt : x.magnitude < infinity := of_decide_eq_true hx
  rw [isReadBackBy, decide_eq_true_iff, hmagnitude]
  constructor
  · intro h
    obtain rfl : m = x.magnitude := by omega
    exact hnearest
  · intro h
    obtain rfl := hnearest.unique valueOf_strictMono h
    exact min_eq_left hlt.le

/-! ## The cuts -/

/-- The expansion without its last `k` digits. -/
def lowCut (x : Binary64) (k : Nat) : Decimal := ⟨x.expansion / Nat.pow 10 k, k - 1074⟩

/-- The next decimal of that length. -/
def highCut (x : Binary64) (k : Nat) : Decimal := ⟨x.expansion / Nat.pow 10 k + 1, k - 1074⟩

/-- The last place of an expansion. -/
def lastPlace : ℚ := 10 ^ (-1074 : Int)

theorem lastPlace_pos : 0 < lastPlace := zpow_pos (by norm_num) _

theorem value_cut (c k : Nat) : Decimal.value ⟨c, k - 1074⟩ = (c * 10 ^ k : Nat) * lastPlace := by
  have hplace : (10 : ℚ) ^ ((k : Int) - 1074) = 10 ^ k * lastPlace := by
    rw [sub_eq_add_neg, zpow_add₀ (by norm_num), zpow_natCast, lastPlace]
  rw [Decimal.value, hplace, ← mul_assoc, Nat.cast_mul, Nat.cast_pow, Nat.cast_ofNat]

theorem absValue_eq_expansion (x : Binary64) : x.absValue = x.expansion * lastPlace := x.value_expansion.symm

theorem value_lowCut_le (x : Binary64) (k : Nat) : (x.lowCut k).value ≤ x.absValue := by
  rw [lowCut, value_cut, absValue_eq_expansion]
  exact mul_le_mul_of_nonneg_right (Nat.cast_le.2 (Nat.div_mul_le_self _ _)) lastPlace_pos.le

theorem lt_value_highCut (x : Binary64) (k : Nat) : x.absValue < (x.highCut k).value := by
  rw [highCut, value_cut, absValue_eq_expansion]
  refine mul_lt_mul_of_pos_right (Nat.cast_lt.2 ?_) lastPlace_pos
  have hpow : 0 < 10 ^ k := Nat.pow_pos (by decide)
  rw [Nat.mul_comm]
  exact Nat.lt_mul_div_succ x.expansion hpow

theorem natCast_le_two_mul (a b : Nat) : a ≤ 2 * b ↔ (a : ℚ) ≤ 2 * b := by norm_cast

/-- The cut that is preferred is the closer one. -/
theorem preferHigh_iff (x : Binary64) (k : Nat) : Nat.pow 10 k ≤ 2 * (x.expansion % Nat.pow 10 k) ↔
    (x.highCut k).value - x.absValue ≤ x.absValue - (x.lowCut k).value := by
  have hdiv := Nat.div_add_mod x.expansion (10 ^ k)
  have hlow : x.absValue - (x.lowCut k).value = (x.expansion % 10 ^ k : Nat) * lastPlace := by
    rw [lowCut, value_cut, absValue_eq_expansion, ← sub_mul, Nat.pow_eq]
    nth_rewrite 1 [← hdiv]
    push_cast
    ring
  have hhigh : (x.highCut k).value - (x.lowCut k).value = (10 ^ k : Nat) * lastPlace := by
    rw [lowCut, highCut, value_cut, value_cut, ← sub_mul]
    push_cast
    ring
  have hsum : (x.highCut k).value - x.absValue ≤ x.absValue - (x.lowCut k).value ↔
      (x.highCut k).value - (x.lowCut k).value ≤ 2 * (x.absValue - (x.lowCut k).value) := by
    constructor <;> intro h <;> linarith
  rw [hsum, hlow, hhigh, ← mul_assoc, mul_le_mul_iff_left₀ lastPlace_pos]
  exact natCast_le_two_mul _ _

/-- Beyond a cut of `k` digits, on either side. -/
def IsBeyondCut (x : Binary64) (k : Nat) (w : ℚ) : Prop := w ≤ (x.lowCut k).value ∨ (x.highCut k).value ≤ w

theorem isReadBackBy_lowCut (hx : x.isFinite = true) {w : ℚ} {k : Nat} (h : NearestIndex valueOf w x.magnitude)
    (hle : w ≤ (x.lowCut k).value) : x.isReadBackBy (x.lowCut k) = true := by
  have hlow := x.value_lowCut_le k
  rw [absValue_eq] at hlow
  refine (isReadBackBy_iff hx).2 (h.of_between ?_)
  rw [abs_of_nonpos (by linarith), abs_of_nonpos (by linarith), abs_of_nonpos (by linarith)]
  ring

theorem isReadBackBy_highCut (hx : x.isFinite = true) {w : ℚ} {k : Nat} (h : NearestIndex valueOf w x.magnitude)
    (hle : (x.highCut k).value ≤ w) : x.isReadBackBy (x.highCut k) = true := by
  have hhigh := x.lt_value_highCut k
  rw [absValue_eq] at hhigh
  refine (isReadBackBy_iff hx).2 (h.of_between ?_)
  rw [abs_of_nonneg (by linarith), abs_of_nonneg (by linarith), abs_of_nonneg (by linarith)]
  ring

/-- What the search at one length tries first, and then. -/
theorem cutAt?_eq (x : Binary64) (k : Nat) :
    (x.highCut k).value - x.absValue ≤ x.absValue - (x.lowCut k).value ∧
      x.cutAt? k = (if x.isReadBackBy (x.highCut k) then some (x.highCut k)
        else if x.isReadBackBy (x.lowCut k) then some (x.lowCut k) else none) ∨
    x.absValue - (x.lowCut k).value < (x.highCut k).value - x.absValue ∧
      x.cutAt? k = (if x.isReadBackBy (x.lowCut k) then some (x.lowCut k)
        else if x.isReadBackBy (x.highCut k) then some (x.highCut k) else none) := by
  by_cases hhigh : Nat.pow 10 k ≤ 2 * (x.expansion % Nat.pow 10 k)
  · refine .inl ⟨(x.preferHigh_iff k).1 hhigh, ?_⟩
    simp only [cutAt?, decide_eq_true hhigh, if_true]
    rfl
  · refine .inr ⟨lt_of_not_ge fun h => hhigh ((x.preferHigh_iff k).2 h), ?_⟩
    simp only [cutAt?, decide_eq_false hhigh, Bool.false_eq_true, if_false]
    rfl

/-- A length that is passed over has no decimal that reads back beyond its cuts. -/
theorem not_isBeyondCut (hx : x.isFinite = true) {k : Nat} (hcut : x.cutAt? k = none) {w : ℚ}
    (h : NearestIndex valueOf w x.magnitude) : ¬ x.IsBeyondCut k w := by
  have hneither : x.isReadBackBy (x.lowCut k) = false ∧ x.isReadBackBy (x.highCut k) = false := by
    rcases x.cutAt?_eq k with ⟨-, heq⟩ | ⟨-, heq⟩ <;> rw [heq] at hcut
    · exact (of_first_eq_none hcut).symm
    · exact of_first_eq_none hcut
  rintro (hlow | hhigh)
  · exact absurd (isReadBackBy_lowCut hx h hlow) (Bool.eq_false_iff.1 hneither.1)
  · exact absurd (isReadBackBy_highCut hx h hhigh) (Bool.eq_false_iff.1 hneither.2)

/-- A cut that is taken is as close as all that reads back beyond the cuts of its length. -/
theorem cutAt?_closest (hx : x.isFinite = true) {k : Nat} {d : Decimal} (hcut : x.cutAt? k = some d) :
    (d = x.lowCut k ∨ d = x.highCut k) ∧ ∀ w, NearestIndex valueOf w x.magnitude → x.IsBeyondCut k w →
      |d.value - x.absValue| ≤ |w - x.absValue| := by
  have hlow : |(x.lowCut k).value - x.absValue| = x.absValue - (x.lowCut k).value := by
    rw [abs_sub_comm, abs_of_nonneg (sub_nonneg.2 (x.value_lowCut_le k))]
  have hhigh : |(x.highCut k).value - x.absValue| = (x.highCut k).value - x.absValue :=
    abs_of_nonneg (sub_nonneg.2 (x.lt_value_highCut k).le)
  have hlowest : ∀ w, w ≤ (x.lowCut k).value → x.absValue - (x.lowCut k).value ≤ |w - x.absValue| := by
    intro w hw
    rw [abs_sub_comm]
    exact (sub_le_sub_left hw _).trans (le_abs_self _)
  have hhighest : ∀ w, (x.highCut k).value ≤ w → (x.highCut k).value - x.absValue ≤ |w - x.absValue| := by
    intro w hw
    exact (sub_le_sub_right hw _).trans (le_abs_self _)
  rcases x.cutAt?_eq k with ⟨hcloser, heq⟩ | ⟨hcloser, heq⟩ <;> rw [heq] at hcut
  · obtain rfl | ⟨rfl, hread⟩ := (of_first_eq_some hcut).2
    · refine ⟨.inr rfl, fun w _ hbeyond => ?_⟩
      rw [hhigh]
      exact hbeyond.elim (fun hw => hcloser.trans (hlowest w hw)) (hhighest w)
    · refine ⟨.inl rfl, fun w h hbeyond => ?_⟩
      rw [hlow]
      exact hbeyond.elim (hlowest w) fun hw =>
        absurd (isReadBackBy_highCut hx h hw) (Bool.eq_false_iff.1 hread)
  · obtain rfl | ⟨rfl, hread⟩ := (of_first_eq_some hcut).2
    · refine ⟨.inl rfl, fun w _ hbeyond => ?_⟩
      rw [hlow]
      exact hbeyond.elim (hlowest w) fun hw => hcloser.le.trans (hhighest w hw)
    · refine ⟨.inr rfl, fun w h hbeyond => ?_⟩
      rw [hhigh]
      exact hbeyond.elim (fun hw => absurd (isReadBackBy_lowCut hx h hw) (Bool.eq_false_iff.1 hread)) (hhighest w)

/-! ## The first cut that reads back -/

/-- A cut that leaves out `k` digits, the first to read back where none leaves out more than `n`. -/
structure IsFirstCut (x : Binary64) (n k : Nat) (d : Decimal) : Prop where
  le : k ≤ n
  coefficient_le : d.coefficient ≤ x.expansion / 10 ^ k + 1
  exponent_eq : d.exponent = k - 1074
  closest : ∀ w, NearestIndex valueOf w x.magnitude → x.IsBeyondCut k w → |d.value - x.absValue| ≤ |w - x.absValue|
  passed : ∀ j, k < j → j ≤ n → ∀ w, NearestIndex valueOf w x.magnitude → ¬ x.IsBeyondCut j w

theorem exists_isFirstCut (hx : x.isFinite = true) : ∀ n, ∃ k, x.IsFirstCut n k (x.firstCut n)
  | 0 => by
    refine ⟨0, Nat.le_refl 0, ?_, rfl, fun w _ _ => ?_, fun j hj hle => absurd hle (Nat.not_le.2 hj)⟩
    · rw [firstCut, Nat.pow_zero, Nat.div_one]
      exact Nat.le_succ _
    · rw [firstCut, value_expansion, sub_self, abs_zero]
      exact abs_nonneg _
  | n + 1 => by
    rw [firstCut]
    cases hcut : x.cutAt? (n + 1) with
    | none =>
      obtain ⟨k, hk⟩ := exists_isFirstCut hx n
      refine ⟨k, Nat.le_succ_of_le hk.le, hk.coefficient_le, hk.exponent_eq, hk.closest, fun j hj hle => ?_⟩
      rcases Nat.lt_or_eq_of_le hle with hlt | rfl
      · exact hk.passed j hj (Nat.le_of_lt_succ hlt)
      · exact fun w h => not_isBeyondCut hx hcut h
    | some d =>
      obtain ⟨hd, hclosest⟩ := cutAt?_closest hx hcut
      refine ⟨n + 1, Nat.le_refl _, ?_, ?_, hclosest, fun j hj hle => absurd hle (Nat.not_le.2 hj)⟩
      · obtain rfl | rfl := hd
        · exact Nat.le_succ _
        · exact Nat.le_refl _
      · obtain rfl | rfl := hd <;> rfl

theorem value_le_value {a b : Nat} (h : a ≤ b) (e : Int) : Decimal.value ⟨a, e⟩ ≤ Decimal.value ⟨b, e⟩ :=
  mul_le_mul_of_nonneg_right (Nat.cast_le.2 h) (zpow_nonneg (by norm_num) e)

/-- **A decimal of `m` digits is beyond the cuts that leave out all but `m` digits**: on their places it is none between
them, and on lower places it is below the first digit of the expansion. -/
theorem isBeyondCut_of_digits (hpos : 0 < x.expansion) {k m : Nat} (hm : 0 < m) (hk : k + m = decimalLength x.expansion)
    {c : Nat} (hc : c < 10 ^ m) (e : Int) : x.IsBeyondCut k (Decimal.value ⟨c, e⟩) := by
  by_cases he : (k : Int) - 1074 ≤ e
  · obtain ⟨i, hi⟩ := Int.eq_ofNat_of_zero_le (Int.sub_nonneg_of_le he)
    have hvalue : Decimal.value ⟨c, e⟩ = Decimal.value ⟨c * 10 ^ i, k - 1074⟩ := by
      have hsplit : e = i + (k - 1074) := by omega
      rw [Decimal.value, Decimal.value, hsplit, zpow_add₀ (by norm_num), zpow_natCast]
      push_cast
      ring
    rw [hvalue]
    rcases Nat.lt_or_ge (x.expansion / Nat.pow 10 k) (c * 10 ^ i) with hlt | hge
    · exact .inr (value_le_value hlt _)
    · exact .inl (value_le_value hge _)
  · have hfirst : 10 ^ (m - 1) ≤ x.expansion / 10 ^ k := by
      have hle := pow_decimalLength_le x.expansion hpos
      have hlength : decimalLength x.expansion - 1 = m - 1 + k := by omega
      rw [hlength, Nat.pow_eq, Nat.pow_add] at hle
      exact (Nat.le_div_iff_mul_le (Nat.pow_pos (by decide))).2 hle
    have hlower : e ≤ k - 1074 - 1 := by omega
    left
    calc Decimal.value ⟨c, e⟩ ≤ 10 ^ m * 10 ^ ((k : Int) - 1074 - 1) := by
          refine mul_le_mul ?_ (zpow_le_zpow_right₀ (by norm_num) hlower) (zpow_nonneg (by norm_num) _) (by positivity)
          exact_mod_cast hc.le
      _ = Decimal.value ⟨10 ^ (m - 1), k - 1074⟩ := by
          have hsucc : m = m - 1 + 1 := by omega
          rw [Decimal.value, zpow_sub_one₀ (by norm_num)]
          nth_rewrite 1 [hsucc]
          push_cast
          ring
      _ ≤ (x.lowCut k).value := value_le_value hfirst _

theorem IsFirstCut.hasDigits {n k : Nat} {d : Decimal} (h : x.IsFirstCut n k d) (hk : k < decimalLength x.expansion) :
    HasDigits d.value (decimalLength x.expansion - k) := by
  have hpow : 0 < 10 ^ k := Nat.pow_pos (by decide)
  have hlength : decimalLength x.expansion - k + k = decimalLength x.expansion := Nat.sub_add_cancel hk.le
  have hlt : x.expansion / 10 ^ k < 10 ^ (decimalLength x.expansion - k) := by
    rw [Nat.div_lt_iff_lt_mul hpow, ← Nat.pow_add, hlength]
    exact lt_pow_decimalLength _
  exact Decimal.hasDigits_value (Nat.sub_pos_of_lt hk) (h.coefficient_le.trans hlt) d.exponent

theorem expansion_pos (hpos : 0 < x.units) : 0 < x.expansion := by
  rewrite [expansion]
  generalize 1074 = k
  exact Nat.mul_pos hpos (Nat.pow_pos (by decide))

/-- **What is written is shortest and closest**: of what reads as a number that is not zero nothing has fewer digits,
and nothing with as many digits is closer. -/
theorem shortest_le (hx : x.isFinite = true) (hpos : 0 < x.units) :
    ∃ n, HasDigits x.shortest.value n ∧ ∀ (w : ℚ) (m : Nat), NearestIndex valueOf |w| x.magnitude → HasDigits w m →
      n ≤ m ∧ (m = n → |x.shortest.value - x.absValue| ≤ |(|w|) - x.absValue|) := by
  have hlength := decimalLength_pos x.expansion
  obtain ⟨k, hfirst⟩ := exists_isFirstCut hx (decimalLength x.expansion - 1)
  have hk : k < decimalLength x.expansion := by
    have := hfirst.le
    omega
  rw [shortest, Decimal.value_stripZeros]
  refine ⟨_, hfirst.hasDigits hk, fun w m hw hdigits => ?_⟩
  obtain ⟨c, e, hc, habs⟩ := hdigits.abs
  rw [habs] at hw ⊢
  have hm : 0 < m := by
    by_contra hzero
    obtain rfl : c = 0 := by
      rw [Nat.eq_zero_of_not_pos hzero] at hc
      omega
    have hle := hw.le 0
    rw [Nat.cast_zero, zero_mul, valueOf_zero, zero_sub, sub_zero, abs_zero, abs_neg, abs_nonpos_iff] at hle
    have hmagnitude := valueOf_strictMono.injective (hle.trans valueOf_zero.symm)
    rw [units, hmagnitude] at hpos
    exact Nat.lt_irrefl 0 hpos
  have hbeyond : m ≤ decimalLength x.expansion →
      x.IsBeyondCut (decimalLength x.expansion - m) (Decimal.value ⟨c, e⟩) := fun hle =>
    isBeyondCut_of_digits (expansion_pos hpos) hm (Nat.sub_add_cancel hle) hc e
  constructor
  · by_contra hlt
    exact hfirst.passed _ (by omega) (by omega) _ hw (hbeyond (by omega))
  · rintro rfl
    have hclosest := hbeyond (Nat.sub_le _ _)
    rw [Nat.sub_sub_self hk.le] at hclosest
    exact hfirst.closest _ hw hclosest

end Binary64
end LoxLexer
