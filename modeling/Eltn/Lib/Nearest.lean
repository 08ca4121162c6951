import Mathlib.Algebra.Order.Field.Power
import Mathlib.Data.Nat.Log
import Mathlib.Data.Rat.Cast.Order
import Mathlib.Tactic.FieldSimp
import Mathlib.Tactic.Linarith
import Mathlib.Tactic.Positivity
import Mathlib.Tactic.Ring

/-!
# Fractions of naturals and powers of two

A fraction is rounded to the nearest integer, to the even one of two (`nearest`, `le_nearest_iff`),
and lies between two powers of two (`binade`, `binade_spec`). Fractions are compared as rational
numbers; `scaled` moves a power between the numerator and the denominator.
-/

namespace Nearest

/-- The integer nearest to `n / d`, the even one of two. -/
def nearest (n d : Nat) : Nat :=
  if d < 2 * (n % d) ∨ (2 * (n % d) = d ∧ (n / d) % 2 = 1) then n / d + 1 else n / d

/-- The exponent of the greatest power of two that is not above `num / den`. -/
def binade (num den : Nat) : Int :=
  let l : Int := (Nat.log 2 num : Int) - Nat.log 2 den
  if den * 2 ^ l.toNat ≤ num * 2 ^ (-l).toNat then l else l - 1

section
variable {n d t num den : Nat}

/-- **The nearest integer is at least `t`** where the fraction is at least `t - 1/2`; there it is
the even one. -/
theorem le_nearest_iff (hd : 0 < d) (ht : 0 < t) :
    t ≤ nearest n d ↔
      (2 * t - 1) * d < 2 * n ∨ (2 * t - 1) * d = 2 * n ∧ t % 2 = 0 := by
  have hdiv : d * (n / d) + n % d = n := Nat.div_add_mod n d
  have hmod : n % d < d := Nat.mod_lt n hd
  unfold nearest
  generalize n / d = q at hdiv ⊢
  generalize n % d = r at hdiv hmod ⊢
  obtain ⟨t, rfl⟩ : ∃ k, t = k + 1 := ⟨t - 1, by omega⟩
  have htwice : (2 * (t + 1) - 1) * d = 2 * (d * t) + d := by
    rw [show 2 * (t + 1) - 1 = 2 * t + 1 by omega]
    ring
  rw [htwice, ← hdiv]
  rcases Nat.lt_trichotomy t q with hlt | rfl | hgt
  · have hle : d * (t + 1) ≤ d * q := Nat.mul_le_mul_left d hlt
    rw [Nat.mul_add] at hle
    refine iff_of_true ?_ (.inl (by omega))
    split <;> omega
  · generalize d * t = p
    split <;> omega
  · have hle : d * (q + 1) ≤ d * t := Nat.mul_le_mul_left d hgt
    rw [Nat.mul_add] at hle
    refine iff_of_false ?_ ?_
    · split <;> omega
    · rintro (hlt | ⟨heq, -⟩) <;> omega

/-- A power of two in the numerator or the denominator, wherever its exponent puts it, scales the
fraction. -/
theorem scaled (num den : Nat) (k : Int) :
    ((num * 2 ^ (-k).toNat : Nat) : ℚ) / (den * 2 ^ k.toNat : Nat) =
      (num : ℚ) / den * 2 ^ (-k) := by
  push_cast
  rcases Int.le_total 0 k with hk | hk
  · obtain ⟨m, rfl⟩ := Int.eq_ofNat_of_zero_le hk
    rw [Int.toNat_natCast, Int.toNat_neg_natCast, pow_zero, mul_one, zpow_neg, zpow_natCast,
      div_mul_eq_div_div, div_eq_mul_inv]
  · obtain ⟨m, hm⟩ := Int.eq_ofNat_of_zero_le (Int.neg_nonneg_of_nonpos hk)
    rw [hm, Int.toNat_natCast, Int.toNat_of_nonpos hk, pow_zero, mul_one, zpow_natCast,
      mul_div_right_comm]

/-- Comparison of a fraction with a power of two, as `binade` does it. -/
theorem pow_le_iff (hden : 0 < den) (k : Int) :
    den * 2 ^ k.toNat ≤ num * 2 ^ (-k).toNat ↔ (2 : ℚ) ^ k ≤ (num : ℚ) / den := by
  have hpos : (0 : ℚ) < (den * 2 ^ k.toNat : Nat) := by positivity
  rw [← Nat.cast_le (α := ℚ), ← one_le_div hpos, scaled, zpow_neg, ← div_eq_mul_inv,
    one_le_div (by positivity)]

/-- **A fraction lies between two powers of two**, the greatest one that is not above it and the
next. The logarithms of its two parts give the exponent up to one. Of the two candidates that are
left, `pow_le_iff` decides by integers. -/
theorem binade_spec (hnum : 0 < num) (hden : 0 < den) :
    (2 : ℚ) ^ binade num den ≤ (num : ℚ) / den ∧
      (num : ℚ) / den < 2 ^ (binade num den + 1) := by
  have hdenq : (0 : ℚ) < den := by exact_mod_cast hden
  have hnumlo : (2 : ℚ) ^ (Nat.log 2 num : Int) ≤ num := by
    rw [zpow_natCast]
    exact_mod_cast Nat.pow_log_le_self 2 hnum.ne'
  have hnumhi : (num : ℚ) < 2 ^ ((Nat.log 2 num : Int) + 1) := by
    have hlt := Nat.lt_pow_succ_log_self (b := 2) (by omega) num
    exact_mod_cast hlt
  have hdenlo : (2 : ℚ) ^ (Nat.log 2 den : Int) ≤ den := by
    rw [zpow_natCast]
    exact_mod_cast Nat.pow_log_le_self 2 hden.ne'
  have hdenhi : (den : ℚ) < 2 ^ ((Nat.log 2 den : Int) + 1) := by
    have hlt := Nat.lt_pow_succ_log_self (b := 2) (by omega) den
    exact_mod_cast hlt
  generalize hl : (Nat.log 2 num : Int) - Nat.log 2 den = l
  have hbelow : (2 : ℚ) ^ (l - 1) ≤ (num : ℚ) / den := by
    rw [le_div_iff₀ hdenq]
    calc (2 : ℚ) ^ (l - 1) * den ≤ 2 ^ (l - 1) * 2 ^ ((Nat.log 2 den : Int) + 1) := by gcongr
      _ = 2 ^ (Nat.log 2 num : Int) := by
        rw [← zpow_add₀ (by norm_num)]
        congr 1
        omega
      _ ≤ num := hnumlo
  have habove : (num : ℚ) / den < 2 ^ (l + 1) := by
    rw [div_lt_iff₀ hdenq]
    calc (num : ℚ) < 2 ^ ((Nat.log 2 num : Int) + 1) := hnumhi
      _ = 2 ^ (l + 1) * 2 ^ (Nat.log 2 den : Int) := by
        rw [← zpow_add₀ (by norm_num)]
        congr 1
        omega
      _ ≤ 2 ^ (l + 1) * den := by gcongr
  unfold binade
  rw [hl]
  dsimp only
  split
  · next hle => exact ⟨(pow_le_iff hden l).mp hle, habove⟩
  · next hlt =>
    rw [pow_le_iff hden l, not_le] at hlt
    exact ⟨hbelow, by rwa [Int.sub_add_cancel]⟩

end

end Nearest
