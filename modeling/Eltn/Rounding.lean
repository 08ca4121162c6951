import Eltn.CLib
import Eltn.Lib.Nearest
import Mathlib.Algebra.Order.Archimedean.Basic
import Mathlib.Tactic.NormNum

/-!
# The ends of the range of doubles

A fraction is rounded to zero up to half the least positive double (`round_zero_iff`) and is
infinite from half a unit above the greatest one on (`round_isInf_iff`). A number scaled by a power
is therefore zero for all small exponents and infinite for all large ones, and it stays so when the
exponent goes on (`ofScaled_zero_iff`, `ofScaled_isInf_iff`).
-/

namespace Eltn

namespace Double

open Nearest

section
variable {neg : Bool} {m num den base : Nat} {e e' : Int}

/-! ## Words -/

/-- The bits of a double of a magnitude: the sign is the highest bit. -/
theorem toNat_ofMagnitude (hm : m ≤ 2047 * 2 ^ 52) :
    (ofMagnitude neg m).bits.toNat = m + if neg then 2 ^ 63 else 0 := by
  rw [ofMagnitude, BitVec.toNat_ofNat, Nat.mod_eq_of_lt]
  cases neg <;> simp <;> omega

/-- It is zero exactly if the magnitude is. -/
theorem isZero_ofMagnitude (hm : m ≤ 2047 * 2 ^ 52) :
    (ofMagnitude neg m).isZero = true ↔ m = 0 := by
  rw [isZero, toNat_ofMagnitude hm, decide_eq_true_eq]
  cases neg <;> simp <;> omega

/-- Infinity is not zero. -/
theorem isInf_of_isZero {d : Double} (h : d.isZero = true) : d.isInf = false := by
  rw [isZero, decide_eq_true_eq] at h
  rw [isInf, Bool.and_eq_false_iff, decide_eq_false_iff_not, exponent]
  exact .inl (by omega)

/-- It is infinite exactly if the magnitude is that of infinity. -/
theorem isInf_ofMagnitude (hm : m ≤ 2047 * 2 ^ 52) :
    (ofMagnitude neg m).isInf = true ↔ m = 2047 * 2 ^ 52 := by
  rw [isInf, exponent, fraction, toNat_ofMagnitude hm, Bool.and_eq_true, decide_eq_true_eq,
    decide_eq_true_eq]
  cases neg <;> simp <;> omega

/-! ## Rounding -/

/-- The parts of a rounded fraction: the exponent `k` of its unit and the number `q` of units. `q`
is told by the midpoints between the units that the fraction is above, or at while `q` is even. The
unit is that of the binade (`binade_spec`) or, below the normal numbers, the least one; the number
of units is the nearest (`le_nearest_iff`). -/
theorem round_spec (neg : Bool) (hnum : 0 < num) (hden : 0 < den) : ∃ (k : Int) (q : Nat),
    round neg num den = ofMagnitude neg
      (min (if q < 2 ^ 52 then q else (k + 1075).toNat * 2 ^ 52 + (q - 2 ^ 52)) (2047 * 2 ^ 52)) ∧
    -1074 ≤ k ∧ (num : ℚ) / den < 2 ^ (k + 53) ∧
    (k = -1074 ∨ (2 : ℚ) ^ (k + 52) ≤ (num : ℚ) / den) ∧
    ∀ t : Nat, 0 < t → (t ≤ q ↔ (2 * t - 1) * 2 ^ k < 2 * ((num : ℚ) / den) ∨
      (2 * t - 1) * 2 ^ k = 2 * ((num : ℚ) / den) ∧ t % 2 = 0) := by
  obtain ⟨hlo, hhi⟩ := binade_spec hnum hden
  generalize hk : max (binade num den - 52) (-1074) = k
  have hround : round neg num den = ofMagnitude neg
      (min (if nearest (num * 2 ^ (-k).toNat) (den * 2 ^ k.toNat) < 2 ^ 52
        then nearest (num * 2 ^ (-k).toNat) (den * 2 ^ k.toNat)
        else (k + 1075).toNat * 2 ^ 52 +
          (nearest (num * 2 ^ (-k).toNat) (den * 2 ^ k.toNat) - 2 ^ 52)) (2047 * 2 ^ 52)) := by
    rw [round, if_neg hnum.ne', ← hk]
    rfl
  refine ⟨k, _, hround, by omega, ?_, ?_, fun t ht => ?_⟩
  · exact hhi.trans_le (zpow_le_zpow_right₀ (by norm_num) (by omega))
  · rcases Int.lt_or_le (binade num den - 52) (-1074) with hsub | hnormal
    · exact .inl (by omega)
    · refine .inr (le_trans ?_ hlo)
      exact zpow_le_zpow_right₀ (by norm_num) (by omega)
  · have hd : 0 < den * 2 ^ k.toNat := by positivity
    have hdq : (0 : ℚ) < (den * 2 ^ k.toNat : Nat) := by exact_mod_cast hd
    have hpow : (0 : ℚ) < 2 ^ k := by positivity
    have hratio : (2 : ℚ) * (num * 2 ^ (-k).toNat : Nat) =
        2 * ((num : ℚ) / den) / 2 ^ k * (den * 2 ^ k.toNat : Nat) := by
      have hscaled := scaled num den k
      rw [div_eq_iff hdq.ne'] at hscaled
      rw [hscaled, zpow_neg]
      ring
    have hodd : ((2 * t - 1 : Nat) : ℚ) = 2 * t - 1 := by
      rw [Nat.cast_sub (by omega)]
      push_cast
      ring
    rw [le_nearest_iff hd ht, ← Nat.cast_lt (α := ℚ), ← Nat.cast_inj (R := ℚ), Nat.cast_mul,
      Nat.cast_mul 2, hodd, Nat.cast_ofNat, hratio, mul_lt_mul_iff_left₀ hdq, mul_left_inj' hdq.ne',
      lt_div_iff₀ hpow, eq_div_iff hpow.ne']

/-- **What is rounded to zero**: at most half the least positive double, the half itself going to
the even neighbour. -/
theorem round_zero_iff (hden : 0 < den) :
    (round neg num den).isZero = true ↔ 2 * ((num : ℚ) / den) ≤ 2 ^ (-1074 : Int) := by
  rcases Nat.eq_zero_or_pos num with rfl | hnum
  · refine iff_of_true ?_ (by simp)
    rw [round, if_pos rfl]
    exact (isZero_ofMagnitude (Nat.zero_le _)).mpr rfl
  obtain ⟨k, q, hround, hk, -, hnormal, hq⟩ := round_spec neg hnum hden
  have hone : 1 ≤ q ↔ (2 : ℚ) ^ k < 2 * ((num : ℚ) / den) := by
    rw [hq 1 one_pos, or_iff_left (fun hodd => by omega), Nat.cast_one]
    norm_num
  have hzero : min (if q < 2 ^ 52 then q else (k + 1075).toNat * 2 ^ 52 + (q - 2 ^ 52))
      (2047 * 2 ^ 52) = 0 ↔ ¬ 1 ≤ q := by
    split <;> omega
  rw [hround, isZero_ofMagnitude (Nat.min_le_right _ _), hzero, hone, not_lt]
  rcases hnormal with rfl | hnormal
  · rfl
  · -- beyond the subnormal numbers the fraction is too large on both sides
    have hpos : (0 : ℚ) < (num : ℚ) / den := by positivity
    have hsmall : (2 : ℚ) ^ (-1074 : Int) ≤ 2 ^ k := zpow_le_zpow_right₀ (by norm_num) hk
    have hlarge : (2 : ℚ) ^ k ≤ 2 ^ (k + 52) := zpow_le_zpow_right₀ (by norm_num) (by omega)
    exact iff_of_false (by linarith) (by linarith)

/-- **What is rounded to infinity**: from half a unit above the greatest double on, the half itself
included. By the exponent of the unit: below that of the greatest doubles nothing gets to be
infinite, at it the number of units decides, above it everything does. -/
theorem round_isInf_iff (hden : 0 < den) :
    (round neg num den).isInf = true ↔
      (2 ^ 54 - 1) * 2 ^ (971 : Int) ≤ 2 * ((num : ℚ) / den) := by
  rcases Nat.eq_zero_or_pos num with rfl | hnum
  · have hno : ¬ (2 ^ 54 - 1) * 2 ^ (971 : Int) ≤ 2 * (((0 : Nat) : ℚ) / den) := by
      rw [Nat.cast_zero, zero_div, mul_zero, not_le]
      positivity
    refine iff_of_false ?_ hno
    rw [round, if_pos rfl, isInf_ofMagnitude (Nat.zero_le _)]
    omega
  obtain ⟨k, q, hround, hk, hlt, hnormal, hq⟩ := round_spec neg hnum hden
  have hpow : (0 : ℚ) < 2 ^ k := by positivity
  have hlt' : 2 * ((num : ℚ) / den) < 2 ^ 54 * 2 ^ k := by
    rw [zpow_add₀ (by norm_num)] at hlt
    norm_num at hlt ⊢
    linarith
  have htop : q ≤ 2 ^ 53 := by
    by_contra hgt
    have hno := (hq (2 ^ 53 + 1) (by omega)).mp (by omega)
    push_cast at hno
    rcases hno with hno | ⟨hno, -⟩ <;> linarith
  have hhalf : 2 ^ 53 ≤ q ↔ (2 ^ 54 - 1) * 2 ^ k ≤ 2 * ((num : ℚ) / den) := by
    rw [hq (2 ^ 53) (by omega), and_iff_left (by omega), ← le_iff_lt_or_eq]
    push_cast
    norm_num
  rw [hround, isInf_ofMagnitude (Nat.min_le_right _ _)]
  rcases Int.lt_trichotomy k 971 with hbelow | rfl | habove
  · -- a power of two below the greatest
    refine iff_of_false ?_ ?_
    · split <;> omega
    · have hle : (2 : ℚ) ^ k ≤ 2 ^ (970 : Int) := zpow_le_zpow_right₀ (by norm_num) (by omega)
      have htwice : (2 : ℚ) ^ (971 : Int) = 2 * 2 ^ (970 : Int) := by
        rw [← zpow_one_add₀ (by norm_num)]
        norm_num only
      rw [not_le, htwice]
      have hpos : (0 : ℚ) < 2 ^ (970 : Int) := by positivity
      generalize (2 : ℚ) ^ (970 : Int) = p at hle hpos ⊢
      linarith
  · -- the power of two of the greatest doubles
    rw [← hhalf]
    split <;> omega
  · have hle : (2 : ℚ) ^ (972 : Int) ≤ 2 ^ k := zpow_le_zpow_right₀ (by norm_num) (by omega)
    have htwice : (2 : ℚ) ^ (972 : Int) = 2 * 2 ^ (971 : Int) := by
      rw [← zpow_one_add₀ (by norm_num)]
      norm_num only
    have hge : (2 : ℚ) ^ 52 * 2 ^ k ≤ (num : ℚ) / den := by
      have hnormal := hnormal.resolve_left (by omega)
      rw [zpow_add₀ (by norm_num)] at hnormal
      norm_num at hnormal ⊢
      linarith
    have hunits : 2 ^ 52 ≤ q := by
      refine (hq (2 ^ 52) (by omega)).mpr (.inl ?_)
      push_cast
      generalize (2 : ℚ) ^ k = p at hpow hge ⊢
      linarith only [hpow, hge]
    refine iff_of_true ?_ ?_
    · split <;> omega
    · rw [htwice] at hle
      generalize (2 : ℚ) ^ (971 : Int) = p at hle ⊢
      linarith

/-! ## Numbers scaled by a power -/

/-- The fraction that `ofScaled` rounds is the scaled number, whatever the sign of the exponent. -/
theorem scaled_eq (m : Nat) (hbase : 0 < base) (e : Int) :
    ((m * base ^ e.toNat : Nat) : ℚ) / (base ^ (-e).toNat : Nat) = m * (base : ℚ) ^ e := by
  have hne : (base : ℚ) ≠ 0 := by exact_mod_cast hbase.ne'
  push_cast
  rcases Int.le_total 0 e with he | he
  · obtain ⟨n, rfl⟩ := Int.eq_ofNat_of_zero_le he
    rw [Int.toNat_natCast, Int.toNat_neg_natCast, pow_zero, div_one, zpow_natCast]
  · obtain ⟨n, hn⟩ := Int.eq_ofNat_of_zero_le (Int.neg_nonneg_of_nonpos he)
    rw [hn, Int.toNat_of_nonpos he, Int.toNat_natCast, pow_zero, mul_one, ← neg_neg e, hn, zpow_neg,
      zpow_natCast, div_eq_mul_inv]

/-- A number is rounded to zero exactly if it is at most half of the least double, the tie included,
since zero is even. -/
theorem ofScaled_zero_iff (hbase : 0 < base) :
    (ofScaled neg m base e).isZero = true ↔
      2 * ((m : ℚ) * (base : ℚ) ^ e) ≤ 2 ^ (-1074 : Int) := by
  rw [ofScaled, round_zero_iff (Nat.pow_pos hbase), scaled_eq m hbase]

/-- A number is rounded to an infinity exactly from half a place above the greatest double on, the
tie included. -/
theorem ofScaled_isInf_iff (hbase : 0 < base) :
    (ofScaled neg m base e).isInf = true ↔
      (2 ^ 54 - 1) * 2 ^ (971 : Int) ≤ 2 * ((m : ℚ) * (base : ℚ) ^ e) := by
  rw [ofScaled, round_isInf_iff (Nat.pow_pos hbase), scaled_eq m hbase]

/-- The words that `ofScaled` gives. -/
theorem ofScaled_word (neg : Bool) (m base : Nat) (e : Int) :
    ∃ w ≤ 2047 * 2 ^ 52, ofScaled neg m base e = ofMagnitude neg w := by
  unfold ofScaled round
  split
  · exact ⟨0, Nat.zero_le _, rfl⟩
  · exact ⟨_, Nat.min_le_right _ _, rfl⟩

/-- The two zeros and the two infinities differ in the sign only. -/
theorem ofScaled_ends {m' base' : Nat} :
    ((ofScaled neg m base e).isZero = true → (ofScaled neg m' base' e').isZero = true →
      ofScaled neg m base e = ofScaled neg m' base' e') ∧
    ((ofScaled neg m base e).isInf = true → (ofScaled neg m' base' e').isInf = true →
      ofScaled neg m base e = ofScaled neg m' base' e') := by
  obtain ⟨w, hw, heq⟩ := ofScaled_word neg m base e
  obtain ⟨w', hw', heq'⟩ := ofScaled_word neg m' base' e'
  rw [heq, heq']
  constructor
  · intro h h'
    rw [(isZero_ofMagnitude hw).mp h, (isZero_ofMagnitude hw').mp h']
  · intro h h'
    rw [(isInf_ofMagnitude hw).mp h, (isInf_ofMagnitude hw').mp h']

/-- A number that is rounded to zero is so for all smaller exponents. -/
theorem ofScaled_zero_mono (hbase : 0 < base) (hle : e' ≤ e)
    (h : (ofScaled neg m base e).isZero = true) : (ofScaled neg m base e').isZero = true := by
  rw [ofScaled_zero_iff hbase] at h ⊢
  have hone : (1 : ℚ) ≤ base := by exact_mod_cast hbase
  have hpow : (base : ℚ) ^ e' ≤ (base : ℚ) ^ e := zpow_le_zpow_right₀ hone hle
  have hmul : (m : ℚ) * (base : ℚ) ^ e' ≤ m * (base : ℚ) ^ e := by gcongr
  linarith

/-- A number that is infinite is so for all larger exponents. -/
theorem ofScaled_isInf_mono (hbase : 0 < base) (hle : e ≤ e')
    (h : (ofScaled neg m base e).isInf = true) : (ofScaled neg m base e').isInf = true := by
  rw [ofScaled_isInf_iff hbase] at h ⊢
  have hone : (1 : ℚ) ≤ base := by exact_mod_cast hbase
  have hpow : (base : ℚ) ^ e ≤ (base : ℚ) ^ e' := zpow_le_zpow_right₀ hone hle
  have hmul : (m : ℚ) * (base : ℚ) ^ e ≤ m * (base : ℚ) ^ e' := by gcongr
  linarith

/-- A number other than zero is infinite when scaled by a large power. From some exponent on, that
is, as the power outgrows every bound. -/
theorem exists_isInf (neg : Bool) (hbase : 1 < base) (hm : 0 < m) :
    ∃ n : Nat, ∀ e : Int, n ≤ e → (ofScaled neg m base e).isInf = true := by
  have hone : (1 : ℚ) < base := by exact_mod_cast hbase
  obtain ⟨n, hn⟩ := pow_unbounded_of_one_lt ((2 ^ 54 - 1) * 2 ^ (971 : Int) : ℚ) hone
  refine ⟨n, fun e he => ofScaled_isInf_mono (Nat.zero_lt_of_lt hbase) he ?_⟩
  rw [ofScaled_isInf_iff (Nat.zero_lt_of_lt hbase), zpow_natCast]
  have hm' : (1 : ℚ) ≤ m := by exact_mod_cast hm
  have hpos : (0 : ℚ) < (base : ℚ) ^ n := by positivity
  have hmul : (base : ℚ) ^ n ≤ m * (base : ℚ) ^ n := le_mul_of_one_le_left hpos.le hm'
  generalize ((2 ^ 54 - 1) * 2 ^ (971 : Int) : ℚ) = c at hn ⊢
  linarith

/-- Every number is zero when scaled by a small power. From some exponent down, that is, as the
power is below every bound. -/
theorem exists_isZero (neg : Bool) (m : Nat) (hbase : 1 < base) :
    ∃ n : Nat, ∀ e : Int, e ≤ -n → (ofScaled neg m base e).isZero = true := by
  have hone : (1 : ℚ) < base := by exact_mod_cast hbase
  obtain ⟨n, hn⟩ := pow_unbounded_of_one_lt (2 * (m : ℚ) * 2 ^ (1074 : Int)) hone
  refine ⟨n, fun e he => ofScaled_zero_mono (Nat.zero_lt_of_lt hbase) he ?_⟩
  rw [ofScaled_zero_iff (Nat.zero_lt_of_lt hbase), zpow_neg, zpow_neg, zpow_natCast,
    ← div_eq_mul_inv, ← mul_div_assoc, div_le_iff₀ (by positivity), inv_mul_eq_div,
    le_div_iff₀ (by positivity)]
  exact hn.le

end

end Double

end Eltn
