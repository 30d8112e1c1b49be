import Mathlib.Data.Nat.Cast.Order.Field
import Mathlib.Order.Monotone.Basic
import Mathlib.Tactic.Linarith
import LoxLexer.Proofs.Rounding
/-!
# Nearest values

Which entry of an increasing sequence is nearest to a value, and of two the even one (`NearestIndex`): there is one
(`NearestIndex.unique`), values between it and what it is nearest to share it (`NearestIndex.of_between`), and the
middle behind an odd entry belongs to the next (`NearestIndex.le_iff_of_odd`).  The magnitudes are such a sequence,
`2 ^ k` units apart from one power of two to the next.

Main statement: `Binary64.nearest_nearestMagnitude`.
-/
namespace LoxLexer

/-! ## The nearest entry of a sequence -/

theorem abs_sub_le_iff_of_lt {a b : ℚ} (h : a < b) (q : ℚ) : |q - a| ≤ |q - b| ↔ 2 * q ≤ a + b := by
  constructor
  · intro hle
    by_contra hlt
    have hb : |q - b| < q - a := abs_sub_lt_iff.2 ⟨by linarith, by linarith⟩
    exact absurd (hle.trans_lt hb) (not_lt.2 (le_abs_self _))
  · intro hle
    have ha : |q - a| ≤ b - q := abs_sub_le_iff.2 ⟨by linarith, by linarith⟩
    rw [abs_sub_comm q b]
    exact ha.trans (le_abs_self _)

theorem le_abs_sub_iff_of_lt {a b : ℚ} (h : a < b) (q : ℚ) : |q - b| ≤ |q - a| ↔ a + b ≤ 2 * q := by
  have hneg := abs_sub_le_iff_of_lt (neg_lt_neg h) (-q)
  rw [neg_sub_neg, neg_sub_neg, abs_sub_comm b, abs_sub_comm a] at hneg
  rw [hneg]
  constructor <;> intro _ <;> linarith

/-- The index of the entry nearest to `q`; of two that are equally near, the even one. -/
structure NearestIndex (grid : Nat → ℚ) (q : ℚ) (m : Nat) : Prop where
  le : ∀ n, |q - grid m| ≤ |q - grid n|
  even : ∀ n, n ≠ m → |q - grid m| = |q - grid n| → m % 2 = 0

namespace NearestIndex

variable {grid : Nat → ℚ} {q w : ℚ} {m n : Nat}

theorem div (h : NearestIndex grid q m) {c : ℚ} (hc : 0 < c) : NearestIndex (fun n => grid n / c) (q / c) m := by
  have hdist : ∀ n, |q / c - grid n / c| = |q - grid n| / c := fun n => by
    rw [← sub_div, abs_div, abs_of_pos hc]
  constructor
  · intro n
    rw [hdist, hdist]
    exact div_le_div_of_nonneg_right (h.le n) hc.le
  · intro n hn heq
    rw [hdist, hdist] at heq
    exact h.even n hn ((div_left_inj' hc.ne').1 heq)

/-- What lies between a value and the entry nearest to it has the same nearest entry. -/
theorem of_between (h : NearestIndex grid q m) (hw : |q - grid m| = |q - w| + |w - grid m|) :
    NearestIndex grid w m := by
  have hfar : ∀ n, |q - grid n| ≤ |q - w| + |w - grid n| := fun n => abs_sub_le q w (grid n)
  constructor
  · intro n
    linarith [h.le n, hfar n]
  · intro n hn heq
    refine h.even n hn (le_antisymm (h.le n) ?_)
    linarith [hfar n]

/-- Where the error is at most half a step, and half a step only to an even entry, the entry is the nearest one, if
the others are a step away or lie on its far side. -/
theorem of_half_step {s : ℚ} (herror : 2 * |q - grid m| ≤ s) (htie : 2 * |q - grid m| = s → m % 2 = 0)
    (hothers : ∀ n, n ≠ m → s ≤ |grid m - grid n| ∨ grid n < grid m ∧ grid m ≤ q) : NearestIndex grid q m := by
  have hfar : ∀ n, n ≠ m → |q - grid m| ≤ |q - grid n| ∧ (|q - grid m| = |q - grid n| → m % 2 = 0) := by
    intro n hn
    rcases hothers n hn with hstep | ⟨hlt, hle⟩
    · have htriangle := abs_sub_le (grid m) q (grid n)
      rw [abs_sub_comm (grid m) q] at htriangle
      exact ⟨by linarith, fun heq => htie (by linarith)⟩
    · have hm : |q - grid m| = q - grid m := abs_of_nonneg (by linarith)
      have hn : |q - grid n| = q - grid n := abs_of_nonneg (by linarith)
      exact ⟨by linarith, fun heq => by linarith⟩
  constructor
  · intro n
    by_cases hn : n = m
    · rw [hn]
    · exact (hfar n hn).1
  · exact fun n hn => (hfar n hn).2

section

variable (hgrid : StrictMono grid)

include hgrid

theorem two_mul_le (h : NearestIndex grid q m) (hn : m < n) : 2 * q ≤ grid m + grid n :=
  (abs_sub_le_iff_of_lt (hgrid hn) q).1 (h.le n)

theorem le_two_mul (h : NearestIndex grid q m) (hn : n < m) : grid n + grid m ≤ 2 * q :=
  (le_abs_sub_iff_of_lt (hgrid hn) q).1 (h.le n)

theorem not_lt_of_nearest (h : NearestIndex grid q m) (h' : NearestIndex grid q n) : ¬ m < n := by
  intro hlt
  have heq : |q - grid m| = |q - grid n| := le_antisymm (h.le n) (h'.le m)
  have heven := h.even n hlt.ne' heq
  have heven' := h'.even m hlt.ne heq.symm
  have hupper := h.two_mul_le hgrid (Nat.lt_succ_self m)
  have hlower := h'.le_two_mul hgrid hlt
  have hbetween : grid (m + 1) < grid n := hgrid (by omega)
  linarith

/-- **There is one nearest entry.** -/
theorem unique (h : NearestIndex grid q m) (h' : NearestIndex grid q n) : m = n :=
  Nat.le_antisymm (Nat.le_of_not_lt (h'.not_lt_of_nearest hgrid h)) (Nat.le_of_not_lt (h.not_lt_of_nearest hgrid h'))

/-- Between an odd entry and the next, the middle belongs to the next. -/
theorem le_iff_of_odd (h : NearestIndex grid q m) (hn : n % 2 = 1) : m ≤ n ↔ 2 * q < grid n + grid (n + 1) := by
  have hstep : grid n < grid (n + 1) := hgrid (Nat.lt_succ_self n)
  constructor
  · intro hle
    by_contra hnot
    rcases Nat.lt_or_eq_of_le hle with hlt | rfl
    · have hupper := h.two_mul_le hgrid (Nat.lt_succ_of_lt hlt)
      have := hgrid hlt
      linarith
    · have hnext := (le_abs_sub_iff_of_lt hstep q).2 (not_lt.1 hnot)
      have heven := h.even (m + 1) (Nat.succ_ne_self m) (le_antisymm (h.le _) hnext)
      omega
  · intro hlt
    by_contra hnot
    have hlower := h.le_two_mul hgrid (Nat.lt_of_not_le hnot)
    have hnext : grid (n + 1) ≤ grid m := hgrid.monotone (Nat.lt_of_not_le hnot)
    linarith

/-- An entry that is nearest among the first is nearest, where `q` is nearer to the last of them than to the next. -/
theorem of_le (hq : 2 * q < grid n + grid (n + 1)) (hle : ∀ i ≤ n, |q - grid m| ≤ |q - grid i|)
    (heven : ∀ i ≤ n, i ≠ m → |q - grid m| = |q - grid i| → m % 2 = 0) : NearestIndex grid q m := by
  have hbeyond : ∀ i, n < i → |q - grid m| < |q - grid i| := by
    intro i hi
    have hnext : grid (n + 1) ≤ grid i := hgrid.monotone hi
    refine (hle n (Nat.le_refl n)).trans_lt (lt_of_not_ge fun hge => ?_)
    have := (le_abs_sub_iff_of_lt (hgrid hi) q).1 hge
    linarith
  constructor
  · intro i
    by_cases hi : i ≤ n
    · exact hle i hi
    · exact (hbeyond i (Nat.lt_of_not_le hi)).le
  · intro i hne heq
    by_cases hi : i ≤ n
    · exact heven i hi hne heq
    · exact absurd heq (hbeyond i (Nat.lt_of_not_le hi)).ne

end

end NearestIndex

/-! ## Rounding to a natural -/

theorem div_le_roundEven (a b : Nat) : a / b ≤ roundEven a b := by
  unfold roundEven
  split_ifs <;> omega

theorem roundEven_le (a b : Nat) : roundEven a b ≤ a / b + 1 := by
  unfold roundEven
  split_ifs <;> omega

theorem cast_eq_div_add_mod (a : Nat) {b : Nat} (hb : 0 < b) :
    (a / b : ℚ) = (a / b : Nat) + (a % b : Nat) / b := by
  have hcast : (a : ℚ) = b * (a / b : Nat) + (a % b : Nat) := by exact_mod_cast (Nat.div_add_mod a b).symm
  have hpos : (b : ℚ) ≠ 0 := Nat.cast_ne_zero.2 hb.ne'
  nth_rewrite 1 [hcast]
  rw [add_div, mul_div_cancel_left₀ _ hpos]

/-- Rounding is off by half at most, and by half only to an even natural. -/
theorem two_mul_abs_sub_roundEven (a : Nat) {b : Nat} (hb : 0 < b) :
    2 * |(a / b : ℚ) - roundEven a b| ≤ 1 ∧ (2 * |(a / b : ℚ) - roundEven a b| = 1 → roundEven a b % 2 = 0) := by
  have hpos : (0 : ℚ) < b := Nat.cast_pos.2 hb
  rw [cast_eq_div_add_mod a hb]
  have hnonneg : 0 ≤ ((a % b : Nat) : ℚ) / b := by positivity
  have hlt : ((a % b : Nat) : ℚ) / b < 1 := (div_lt_one hpos).2 (Nat.cast_lt.2 (Nat.mod_lt a hb))
  unfold roundEven
  split_ifs with hlow hhigh
  · have hlow : ((a % b : Nat) : ℚ) / b < 1 / 2 := by
      rw [div_lt_div_iff₀ hpos (by norm_num)]
      exact_mod_cast (by omega : a % b * 2 < 1 * b)
    rw [add_sub_cancel_left, abs_of_nonneg hnonneg]
    exact ⟨by linarith, fun heq => by linarith⟩
  · have hhigh : 1 / 2 < ((a % b : Nat) : ℚ) / b := by
      rw [div_lt_div_iff₀ (by norm_num) hpos]
      exact_mod_cast (by omega : 1 * b < a % b * 2)
    rw [Nat.cast_succ, add_sub_add_left_eq_sub, abs_of_neg (by linarith)]
    exact ⟨by linarith, fun heq => by linarith⟩
  · have hhalf : ((a % b : Nat) : ℚ) / b = 1 / 2 := by
      rw [div_eq_div_iff hpos.ne' (by norm_num)]
      exact_mod_cast (by omega : a % b * 2 = 1 * b)
    rw [Nat.cast_add, add_sub_add_left_eq_sub, hhalf]
    refine ⟨?_, fun _ => by omega⟩
    rcases Nat.mod_two_eq_zero_or_one (a / b) with h | h <;> rw [h] <;> norm_num [abs_le]

namespace Binary64

/-! ## Magnitudes in order -/

/-- From a magnitude to the next it is at least one step of its spacing. -/
theorem unitsOf_succ {k r : Nat} (hk : k = 0 ∨ binade ≤ r) (hr : r < 2 * binade) :
    unitsOf (k * binade + r + 1) = unitsOf (k * binade + r) + 2 ^ k := by
  rw [Nat.add_assoc, unitsOf_add (hk.imp_right Nat.le_succ_of_le) hr, unitsOf_add hk (Nat.le_of_lt hr),
    Nat.shiftLeft_eq, Nat.shiftLeft_eq, Nat.succ_mul]

theorem unitsOf_strictMono : StrictMono unitsOf := by
  refine strictMono_nat_of_lt_succ fun m => ?_
  obtain ⟨k, r, rfl, hk, hr⟩ := exists_spacing m
  rw [unitsOf_succ hk hr]
  exact Nat.lt_add_of_pos_right (Nat.two_pow_pos k)

theorem add_pow_le_unitsOf_succ {k r : Nat} (hk : k = 0 ∨ binade ≤ r) (hr : r ≤ 2 * binade) :
    unitsOf (k * binade + r) + 2 ^ k ≤ unitsOf (k * binade + r + 1) := by
  rcases Nat.lt_or_eq_of_le hr with hlt | rfl
  · exact Nat.le_of_eq (unitsOf_succ hk hlt).symm
  · rw [two_mul_binade, unitsOf_succ (.inr (Nat.le_refl _)) (by decide)]
    exact Nat.add_le_add_left (Nat.pow_le_pow_right (by decide) (Nat.le_succ k)) _

/-- Other magnitudes are a step away, but for those below a power of two, where the steps are shorter. -/
theorem step_le_or_lt {k r n : Nat} (hk : k = 0 ∨ binade ≤ r) (hr : r ≤ 2 * binade) (hn : n ≠ k * binade + r) :
    unitsOf (k * binade + r) + 2 ^ k ≤ unitsOf n ∨ unitsOf n + 2 ^ k ≤ unitsOf (k * binade + r) ∨
      n < k * binade + r ∧ 0 < k ∧ r = binade := by
  rcases Nat.lt_or_gt_of_ne hn with hlt | hgt
  · by_cases hpower : 0 < k ∧ r = binade
    · exact .inr (.inr ⟨hlt, hpower⟩)
    · have hbelow : k = 0 ∨ binade ≤ r - 1 := by omega
      have hbinade : 0 < binade := by decide
      have hpos : 0 < r := by
        rcases hk with rfl | hk <;> omega
      have hpred : k * binade + r = k * binade + (r - 1) + 1 := by omega
      have hle : unitsOf n ≤ unitsOf (k * binade + (r - 1)) := unitsOf_strictMono.monotone (by omega)
      refine .inr (.inl ?_)
      rw [hpred, unitsOf_succ hbelow (by omega)]
      exact Nat.add_le_add_right hle _
  · exact .inl ((add_pow_le_unitsOf_succ hk hr).trans (unitsOf_strictMono.monotone hgt))

/-! ## The nearest magnitude -/

/-- With the spacing taken out, a quotient has 53 bits, or fewer where the spacing is a unit. -/
theorem div_spacing (units den : Nat) :
    units / den / 2 ^ spacing units den < 2 * binade ∧
      (spacing units den = 0 ∨ binade ≤ units / den / 2 ^ spacing units den) := by
  rw [binade_eq, spacing]
  generalize units / den = n
  have hpow : 0 < 2 ^ (n.log2 - 52) := Nat.two_pow_pos _
  constructor
  · rw [Nat.div_lt_iff_lt_mul hpow, Nat.mul_comm 2, ← Nat.pow_succ, ← Nat.pow_add]
    exact Nat.lt_of_lt_of_le Nat.lt_log2_self (Nat.pow_le_pow_right (by decide) (by omega))
  · by_cases hlog : n.log2 - 52 = 0
    · exact .inl hlog
    · refine .inr ((Nat.le_div_iff_mul_le hpow).2 ?_)
      have hn : n ≠ 0 := by
        rintro rfl
        exact hlog rfl
      rw [← Nat.pow_add, Nat.add_sub_cancel' (by omega)]
      exact Nat.log2_self_le hn

theorem roundEven_spacing (units den : Nat) :
    (spacing units den = 0 ∨ binade ≤ roundEven units (den <<< spacing units den)) ∧
      roundEven units (den <<< spacing units den) ≤ 2 * binade := by
  obtain ⟨hlt, hle⟩ := div_spacing units den
  have hdiv : units / (den <<< spacing units den) = units / den / 2 ^ spacing units den := by
    rw [Nat.shiftLeft_eq, Nat.div_div_eq_div_mul]
  have hlower := div_le_roundEven units (den <<< spacing units den)
  have hupper := roundEven_le units (den <<< spacing units den)
  rw [hdiv] at hlower hupper
  exact ⟨hle.imp_right fun h => h.trans hlower, by omega⟩

/-- The error in units is the error on the spacing, scaled. -/
theorem two_mul_abs_sub_shiftLeft (units : Nat) {den : Nat} (hden : 0 < den) (r k : Nat) :
    2 * |(units / den : ℚ) - (r <<< k : Nat)| = 2 * |(units / (den <<< k : Nat) : ℚ) - r| * 2 ^ k := by
  have hpow : (0 : ℚ) < 2 ^ k := by positivity
  have hscaled : (units / den : ℚ) - (r <<< k : Nat) = ((units / (den <<< k : Nat) : ℚ) - r) * 2 ^ k := by
    rw [Nat.shiftLeft_eq, Nat.shiftLeft_eq]
    push_cast
    field_simp
  rw [hscaled, abs_mul, abs_of_pos hpow, mul_assoc]

theorem parity_add (k r : Nat) : (k * binade + r) % 2 = r % 2 := by
  have heven : binade = 2 * 0x8000000000000 := rfl
  rw [heven]
  omega

/-- **The nearest magnitude is nearest.** -/
theorem nearest_nearestMagnitude (units : Nat) {den : Nat} (hden : 0 < den) :
    NearestIndex (fun m => (unitsOf m : ℚ)) (units / den) (nearestMagnitude units den) := by
  obtain ⟨hk, hr⟩ := roundEven_spacing units den
  obtain ⟨-, hfloor⟩ := div_spacing units den
  have hb : 0 < den <<< spacing units den := by
    rw [Nat.shiftLeft_eq]
    exact Nat.mul_pos hden (Nat.two_pow_pos _)
  obtain ⟨hhalf, htie⟩ := two_mul_abs_sub_roundEven units hb
  unfold nearestMagnitude
  generalize roundEven units (den <<< spacing units den) = r at *
  generalize spacing units den = k at *
  have hpow : (0 : ℚ) < 2 ^ k := by positivity
  have herror := two_mul_abs_sub_shiftLeft units hden r k
  rw [← unitsOf_add hk hr] at herror
  refine .of_half_step (s := 2 ^ k) ?_ (fun heq => ?_) (fun n hn => ?_)
  · rw [herror]
    exact mul_le_of_le_one_left hpow.le hhalf
  · rw [herror, mul_eq_right₀ hpow.ne'] at heq
    rw [parity_add, htie heq]
  · rcases step_le_or_lt hk hr hn with hstep | hstep | ⟨hlt, hpos, rfl⟩
    · have hstep : (unitsOf (k * binade + r) : ℚ) + 2 ^ k ≤ unitsOf n := by exact_mod_cast hstep
      exact .inl (le_abs.2 (.inr (by linarith)))
    · have hstep : (unitsOf n : ℚ) + 2 ^ k ≤ unitsOf (k * binade + r) := by exact_mod_cast hstep
      exact .inl (le_abs.2 (.inl (by linarith)))
    -- below a power of two the steps are half as long, but the quotient is not below it
    · have hle : unitsOf (k * binade + binade) ≤ units / den := by
        rw [unitsOf_add hk hr, Nat.shiftLeft_eq]
        exact (Nat.le_div_iff_mul_le (Nat.two_pow_pos k)).1 (hfloor.resolve_left hpos.ne')
      refine .inr ⟨Nat.cast_lt.2 (unitsOf_strictMono hlt), ?_⟩
      exact (Nat.cast_le.2 hle).trans Nat.cast_div_le

end Binary64
end LoxLexer
