import LoxLexer.Proofs.Rounding
/-!
# The shortest decimal reads back

All the digits of a double have its value and read back, a cut is taken only if it reads back, and the zeros at the
end do not count.

Main statement: `Binary64.magnitude_shortest`.
-/
namespace LoxLexer

namespace Decimal

/-- A zero at the end of the coefficient is a place in the exponent. -/
theorem value_div_ten {c : Nat} (h : c % 10 = 0) (e : Int) : value ⟨c / 10, e + 1⟩ = value ⟨c, e⟩ := by
  have hc : (c : ℚ) = (c / 10 : Nat) * 10 := by
    exact_mod_cast (Nat.div_mul_cancel (Nat.dvd_of_mod_eq_zero h)).symm
  rw [value, value, hc, zpow_add_one₀ (by norm_num)]
  ring

theorem value_stripZeros (d : Decimal) : d.stripZeros.value = d.value := by
  fun_induction stripZeros d with
  | case1 d h => simp [value, h]
  | case2 d _ hmod ih => rw [ih, value_div_ten hmod]
  | case3 d _ _ => rfl

end Decimal

namespace Binary64

theorem value_scaled (units k : Nat) : Decimal.value ⟨units * Nat.pow 5 k, -(k : Int)⟩ = units / 2 ^ k := by
  have hten : (10 : ℚ) ^ k = 5 ^ k * 2 ^ k := by rw [← mul_pow]; norm_num
  rw [Decimal.value, zpow_neg, zpow_natCast, hten, Nat.pow_eq]
  push_cast
  field_simp

theorem value_expansion (x : Binary64) : Decimal.value ⟨x.expansion, -1074⟩ = x.absValue := by
  have hexponent : (-1074 : Int) = -((1074 : Nat) : Int) := rfl
  rewrite [expansion, absValue, hexponent]
  -- the power is too large to be compared as a number
  generalize 1074 = k
  exact value_scaled x.units k

section

variable {α : Type} {p : α → Bool} {first second a : α}

theorem of_first_eq_some (h : (if p first then some first else if p second then some second else none) = some a) :
    p a = true ∧ (a = first ∨ a = second ∧ p first = false) := by
  split_ifs at h with hfirst hsecond
  · obtain rfl := Option.some.inj h
    exact ⟨hfirst, .inl rfl⟩
  · obtain rfl := Option.some.inj h
    exact ⟨hsecond, .inr ⟨rfl, Bool.eq_false_iff.2 hfirst⟩⟩

theorem of_first_eq_none (h : (if p first then some first else if p second then some second else none) = none) :
    p first = false ∧ p second = false := by
  split_ifs at h with hfirst hsecond
  exact ⟨Bool.eq_false_iff.2 hfirst, Bool.eq_false_iff.2 hsecond⟩

end

theorem isReadBackBy_of_cutAt? {x : Binary64} {k : Nat} {d : Decimal} (h : x.cutAt? k = some d) :
    x.isReadBackBy d = true := (of_first_eq_some h).1

theorem isReadBackBy_firstCut {x : Binary64} (hx : x.isFinite = true) : ∀ k, x.isReadBackBy (x.firstCut k) = true
  | 0 => decide_eq_true (Decimal.magnitude_toBinary64 hx x.value_expansion)
  | k + 1 => by
    rw [firstCut]
    cases hcut : x.cutAt? (k + 1) with
    | none => exact isReadBackBy_firstCut hx k
    | some d => exact isReadBackBy_of_cutAt? hcut

/-- **The shortest decimal of a finite number reads back**, up to the sign. -/
theorem magnitude_shortest {x : Binary64} (hx : x.isFinite = true) : x.shortest.toBinary64.magnitude = x.magnitude := by
  rw [shortest, Decimal.toBinary64_congr (Decimal.value_stripZeros _)]
  exact of_decide_eq_true (isReadBackBy_firstCut hx _)

theorem toBinary64_shortest {x : Binary64} (hx : x.isFinite = true) (hsign : x.isNegative = false) :
    x.shortest.toBinary64 = x :=
  eq_of_magnitude_eq (Decimal.isNegative_toBinary64 _) hsign (magnitude_shortest hx)

end Binary64
end LoxLexer
