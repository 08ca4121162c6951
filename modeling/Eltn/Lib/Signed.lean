import Mathlib.Algebra.Order.Ring.Int
import Mathlib.Tactic.Common
import Mathlib.Tactic.Linarith

/-!
# Signed integers of a machine

Arithmetic on signed integers of `w` bits in which an overflow has no result, so that a result says
that no step of a computation overflows; and remainders that are truncated, as those of C, and stay
between minus and plus the modulus (`reduced_tmod`).
-/

namespace Signed

/-- `n` is a value of the signed type of `w` bits. -/
def Fits (w : Nat) (n : Int) : Prop := -2 ^ (w - 1) ≤ n ∧ n < 2 ^ (w - 1)

instance (w : Nat) (n : Int) : Decidable (Fits w n) := inferInstanceAs (Decidable (_ ∧ _))

/-- A result of the type of `w` bits. -/
def checked (w : Nat) (n : Int) : Option Int := if Fits w n then some n else none

/-- `n` is less than `m` away from zero. -/
def Reduced (m n : Int) : Prop := -m < n ∧ n < m

section
variable {w : Nat} {m k n d p : Int}

/-- A value that fits passes the check. -/
theorem checked_eq (h : Fits w n) : checked w n = some n := if_pos h

/-- A reduced value fits a word that holds the modulus. -/
theorem Reduced.fits (h : Reduced m n) (hm : m ≤ 2 ^ (w - 1)) : Fits w n :=
  ⟨by linarith [h.1], by linarith [h.2]⟩

/-- Zero is reduced. -/
theorem reduced_zero (hm : 0 < m) : Reduced m 0 := ⟨Int.neg_neg_of_pos hm, hm⟩

/-- The truncated remainder has the sign of the dividend. -/
theorem reduced_tmod (hm : 0 < m) (n : Int) : Reduced m (n.tmod m) :=
  ⟨Int.lt_tmod_of_pos n hm, Int.tmod_lt_of_pos n hm⟩

/-- A term with a bounded factor, added to what is reduced. The bound is that of the type in which
the sum is computed. -/
theorem Reduced.add_mul (hn : Reduced m n) (hp : 0 ≤ p) (hpm : p < m) (hlo : -k ≤ d) (hhi : d ≤ k) :
    Reduced ((k + 1) * m) (n + d * p) := by
  have hk : 0 ≤ k := by linarith
  have hbound : k * p ≤ k * m := mul_le_mul_of_nonneg_left hpm.le hk
  have hupper : d * p ≤ k * p := mul_le_mul_of_nonneg_right hhi hp
  have hlower : -k * p ≤ d * p := mul_le_mul_of_nonneg_right hlo hp
  obtain ⟨hneg, hpos⟩ := hn
  constructor
  · linarith
  · linarith

end

end Signed
