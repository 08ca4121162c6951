import Eltn.Lexer.Numbers
import Mathlib.Data.List.Induction
import Mathlib.Tactic.Ring

/-!
# The values of numbers

`strtod` on a number and the bytes behind it, part by part: the digits of the mantissa
(`mantissaPart_append`), those of the exponent (`exponentPart_digits`), and the value put together
(`Front.strtod_eq`). `Front` is what stands before the mantissa, so that decimal and hexadecimal
numbers are one case.
-/

namespace Eltn

section
variable {base : Nat} {lower upper c : UInt8} {m r t ds es : Bytes}

/-! ## Digits -/

/-- The value of digits behind others: the first ones are shifted by the number of the second. -/
theorem digitsVal_append (base : Nat) (a b : Bytes) :
    digitsVal base (a ++ b) = digitsVal base a * base ^ b.length + digitsVal base b := by
  induction b using List.reverseRecOn with
  | nil => simp [digitsVal]
  | append_singleton b c ih =>
    have hsnoc (s : Bytes) :
        digitsVal base (s ++ [c]) = digitsVal base s * base + (digitVal base c).getD 0 := by
      simp [digitsVal]
    rw [← List.append_assoc, hsnoc, hsnoc, ih, List.length_append, List.length_singleton, pow_succ]
    ring

/-- Only the digit `0` is worth nothing. -/
theorem digitVal_zero_iff (hc : isBaseDigit base c = true) :
    (digitVal base c).getD 0 = 0 ↔ c = 0x30 := by
  obtain ⟨v, hv⟩ := Option.isSome_iff_exists.mp hc
  rw [hv, Option.getD_some]
  simp only [digitVal, UInt8.le_iff_toNat_le, ← UInt8.toNat_inj] at hv ⊢
  grind

/-- A string of digits is zero where all its digits are. -/
theorem digitsVal_zero_iff (hbase : 0 < base) (hds : ∀ c ∈ ds, isBaseDigit base c = true) :
    digitsVal base ds = 0 ↔ ∀ c ∈ ds, c = 0x30 := by
  induction ds with
  | nil => simp [digitsVal]
  | cons c ds ih =>
    obtain ⟨hc, hds⟩ := List.forall_mem_cons.mp hds
    have hcons : digitsVal base [c] = (digitVal base c).getD 0 := by simp [digitsVal]
    have hpow : base ^ ds.length ≠ 0 := (Nat.pow_pos hbase).ne'
    rw [List.forall_mem_cons, ← List.singleton_append, digitsVal_append, hcons,
      Nat.add_eq_zero_iff, ih hds, Nat.mul_eq_zero, or_iff_left hpow, digitVal_zero_iff hc]

/-- There are numbers of any size, so that digits can make an exponent as great as is wanted. -/
theorem exists_digits (n : Nat) :
    ∃ ds : Bytes, ds ≠ [] ∧ (∀ c ∈ ds, isDigit c = true) ∧ n ≤ digitsVal 10 ds := by
  induction n with
  | zero => exact ⟨[0x31], by simp, by simp [isDigit], Nat.zero_le _⟩
  | succ n ih =>
    obtain ⟨ds, -, hds, hle⟩ := ih
    refine ⟨ds ++ [0x31], by simp, ?_, ?_⟩
    · intro c hc
      rcases List.mem_append.mp hc with hc | hc
      · exact hds c hc
      · rw [List.mem_singleton.mp hc]
        rfl
    · have hone : digitsVal 10 [0x31] = 1 := rfl
      rw [digitsVal_append, hone]
      simp only [List.length_singleton]
      omega

/-! ## The parts of a number -/

/-- What stands behind a mantissa so that it ends there. -/
structure Stops (base : Nat) (r : Bytes) : Prop where
  digit : r.head?.any (isBaseDigit base) = false
  point : r.head? ≠ some 0x2E

/-- A mantissa ends at the end of the bytes. -/
theorem stops_nil : Stops base [] := ⟨rfl, fun h => by cases h⟩

/-- A mantissa is read in the same way whatever is behind it, as long as that is neither a digit nor
a point. -/
theorem mantissaPart_append (hdot : isBaseDigit base 0x2E = false)
    (ht : Mantissa (isBaseDigit base) t) (hr : Stops base r) :
    mantissaPart base (t ++ r) = mantissaPart base t := by
  have hpoint := hr.point
  cases ht with
  | whole hne hds =>
    obtain ⟨htake, -⟩ := takeWhile_run hds hr.digit
    have hself : t.takeWhile (isBaseDigit base) = t := List.takeWhile_eq_self_iff.mpr hds
    simp [mantissaPart, htake, hself, hpoint]
  | @point ds fs hne hds hfs =>
    have hstop (r : Bytes) : (0x2E :: (fs ++ r)).head?.any (isBaseDigit base) = false := by
      simpa using hdot
    obtain ⟨htake, -⟩ := takeWhile_run hds (hstop r)
    obtain ⟨htake', -⟩ := takeWhile_run hds (hstop [])
    obtain ⟨hftake, -⟩ := takeWhile_run hfs hr.digit
    have hself : fs.takeWhile (isBaseDigit base) = fs := List.takeWhile_eq_self_iff.mpr hfs
    rw [List.append_nil] at htake'
    simp [mantissaPart, htake, htake', hftake, hself]
  | @fraction fs hne hfs =>
    obtain ⟨hftake, -⟩ := takeWhile_run hfs hr.digit
    have hself : fs.takeWhile (isBaseDigit base) = fs := List.takeWhile_eq_self_iff.mpr hfs
    simp [mantissaPart, hdot, hftake, hself]

/-- No letter of a prefix stands behind the first byte, so that there is no prefix. -/
theorem hexPrefix_eq_false {w : Bytes} (hw : ∀ b ∈ w, b ≠ 0x78 ∧ b ≠ 0x58)
    (hr : ∀ b ∈ r.head?, b ≠ 0x78 ∧ b ≠ 0x58) : hexPrefix (c :: (w ++ r)) = false := by
  rw [Bool.eq_false_iff, Ne, hexPrefix_iff]
  rintro ⟨x, s, hs, hx⟩
  obtain ⟨-, hs⟩ := List.cons.inj hs
  obtain ⟨hlower, hupper⟩ : x ≠ 0x78 ∧ x ≠ 0x58 := by
    cases w with
    | nil =>
      rw [List.nil_append] at hs
      exact hr x (hs ▸ rfl)
    | cons d w =>
      obtain ⟨rfl, -⟩ := List.cons.inj hs
      exact hw d List.mem_cons_self
  exact hx.elim hlower hupper

/-- The number that the digits of a mantissa make is zero where all of them are, and nowhere else.
By the three forms of a mantissa, the value being that of its digits without the point. -/
theorem mantissaPart_zero_iff {n f len : Nat} (hbase : 0 < base)
    (hdot : isBaseDigit base 0x2E = false) (ht : Mantissa (isBaseDigit base) t)
    (h : mantissaPart base t = some (n, f, len)) :
    n = 0 ↔ ∀ c ∈ t, c = 0x30 ∨ c = 0x2E := by
  have hdigits (ds : Bytes) (hds : ∀ c ∈ ds, isBaseDigit base c = true) :
      (∀ c ∈ ds, c = 0x30 ∨ c = 0x2E) ↔ ∀ c ∈ ds, c = 0x30 := by
    refine forall₂_congr fun c hc => or_iff_left ?_
    rintro rfl
    rw [hds _ hc] at hdot
    cases hdot
  cases ht with
  | whole hne hds =>
    have hself : t.takeWhile (isBaseDigit base) = t := List.takeWhile_eq_self_iff.mpr hds
    have hn : n = digitsVal base t := by
      simp [mantissaPart, hself, hne] at h
      exact h.1.symm
    rw [hn, digitsVal_zero_iff hbase hds, hdigits t hds]
  | @point ds fs hne hds hfs =>
    have hstop : (0x2E :: fs).head?.any (isBaseDigit base) = false := by simpa using hdot
    obtain ⟨htake, -⟩ := takeWhile_run hds hstop
    have hself : fs.takeWhile (isBaseDigit base) = fs := List.takeWhile_eq_self_iff.mpr hfs
    have hn : n = digitsVal base (ds ++ fs) := by
      simp [mantissaPart, htake, hself, hne] at h
      exact h.1.symm
    rw [hn, digitsVal_zero_iff hbase (List.forall_mem_append.mpr ⟨hds, hfs⟩),
      List.forall_mem_append, List.forall_mem_append, List.forall_mem_cons, hdigits ds hds,
      hdigits fs hfs]
    simp
  | @fraction fs hne hfs =>
    have hself : fs.takeWhile (isBaseDigit base) = fs := List.takeWhile_eq_self_iff.mpr hfs
    have hn : n = digitsVal base fs := by
      simp [mantissaPart, hdot, hself, hne] at h
      exact h.1.symm
    rw [hn, digitsVal_zero_iff hbase hfs, List.forall_mem_cons, hdigits fs hfs]
    simp

/-- A digit behind a mantissa belongs to it. -/
theorem Mantissa.snoc {digit : UInt8 → Bool} (ht : Mantissa digit t) (hc : digit c = true) :
    Mantissa digit (t ++ [c]) := by
  have hsnoc {ds : Bytes} (hds : ∀ c ∈ ds, digit c = true) : ∀ d ∈ ds ++ [c], digit d = true :=
    List.forall_mem_append.mpr ⟨hds, List.forall_mem_singleton.mpr hc⟩
  cases ht with
  | whole hne hds => exact .whole (by simp) (hsnoc hds)
  | @point ds fs hne hds hfs =>
    rw [List.append_assoc, List.cons_append]
    exact .point hne hds (hsnoc hfs)
  | fraction hne hfs => exact .fraction (by simp) (hsnoc hfs)

/-- The digits of an exponent, and where its sign is: digits that follow are read as if they were
its own. -/
theorem exponentPart_digits (hc : c = lower ∨ c = upper)
    (hes : es = [] ∨ es = [0x2B] ∨ es = [0x2D]) (hne : ds ≠ [])
    (hds : ∀ c ∈ ds, isDigit c = true) (r : Bytes) :
    (exponentPart lower upper (c :: (es ++ (ds ++ r)))).1 =
      (if es = [0x2D] then -1 else 1) * (digitsVal 10 (ds ++ r.takeWhile isDigit) : Int) := by
  have hhead : (ds ++ r).head? ≠ some 0x2B ∧ (ds ++ r).head? ≠ some 0x2D := by
    cases ds with
    | nil => exact absurd rfl hne
    | cons d ds =>
      have hd := hds d List.mem_cons_self
      constructor <;> (intro h; cases h; cases hd)
  have hsign : (signPart (es ++ (ds ++ r))).1 = decide (es = [0x2D]) := by
    rcases hes with rfl | rfl | rfl
    · cases ds with
      | nil => exact absurd rfl hne
      | cons d ds =>
        obtain ⟨hplus, hminus⟩ : d ≠ 0x2B ∧ d ≠ 0x2D := by simpa using hhead
        simp [signPart, hplus, hminus]
    · rfl
    · rfl
  have htake : (ds ++ r).takeWhile isDigit = ds ++ r.takeWhile isDigit :=
    List.takeWhile_append_of_pos hds
  have hsome : ds ++ r.takeWhile isDigit ≠ [] := by simp [hne]
  simp only [exponentPart, if_pos hc, signPart_complete hhead hes, List.drop_left, hsign,
    isBaseDigit_ten, htake, if_neg hsome, decide_eq_true_eq]
  split <;> ring

/-- No exponent is read where no letter introduces one. -/
theorem exponentPart_none (hl : r.head? ≠ some lower) (hu : r.head? ≠ some upper) :
    (exponentPart lower upper r).1 = 0 := by
  cases r with
  | nil => rfl
  | cons c r =>
    have hno : ¬ (c = lower ∨ c = upper) := by
      rintro (rfl | rfl)
      · exact hl rfl
      · exact hu rfl
    rw [exponentPart, if_neg hno]

end

/-! ## The whole number -/

/-- What stands before the mantissa of a number: its sign, and the letter of `0x` for a hexadecimal
one. -/
structure Front where
  sg : Bytes
  mark : Option UInt8
deriving DecidableEq, Repr

namespace Front

/-- The bytes before the mantissa. -/
def text (f : Front) : Bytes := f.sg ++ f.mark.elim [] fun x => [0x30, x]

/-- The base of the digits. -/
def base (f : Front) : Nat := f.mark.elim 10 fun _ => 16

/-- The base of the power that the exponent stands for. -/
def scale (f : Front) : Nat := f.mark.elim 10 fun _ => 2

/-- What a digit behind the point takes from the exponent. -/
def shift (f : Front) : Nat := f.mark.elim 1 fun _ => 4

/-- The letters of the exponent. -/
def lower (f : Front) : UInt8 := f.mark.elim 0x65 fun _ => 0x70

@[inherit_doc lower]
def upper (f : Front) : UInt8 := f.mark.elim 0x45 fun _ => 0x50

/-- The sign is `-` or absent, and the letter is `x` or `X`. -/
structure Ok (f : Front) : Prop where
  sign : f.sg = [] ∨ f.sg = [0x2D]
  mark : ∀ x ∈ f.mark, x = 0x78 ∨ x = 0x58

section
variable {f : Front} {m r str : Bytes} {n p len : Nat}

/-- The base of the digits is not zero. -/
theorem base_pos (f : Front) : 0 < f.base := by
  cases h : f.mark <;> simp [base, h]

/-- The base of the power is at least two. -/
theorem one_lt_scale (f : Front) : 1 < f.scale := by
  cases h : f.mark <;> simp [scale, h]

/-- A point is no digit to either base. -/
theorem digit_point (f : Front) : isBaseDigit f.base 0x2E = false := by
  cases h : f.mark <;> simp [base, h] <;> decide

/-- **The value of a number**, by its mantissa and what is behind it. The byte behind the digit `0`
is not the `x` of a hexadecimal number. A number without a mark is read as decimal, since no `x`
follows its first digit; one with a mark is read behind its `0x`. -/
theorem strtod_eq (h : f.Ok) (hm : Mantissa (isBaseDigit f.base) m) (hr : Stops f.base r)
    (hx : ∀ c ∈ r.head?, c ≠ 0x78 ∧ c ≠ 0x58) (hmant : mantissaPart f.base m = some (n, p, len))
    (hlen : len = m.length) :
    (strtod (f.text ++ (m ++ r))).1 = .ofScaled (f.sg = [0x2D]) n f.scale
      ((exponentPart f.lower f.upper r).1 - f.shift * p) := by
  have hmant' := (mantissaPart_append f.digit_point hm hr).trans hmant
  obtain ⟨sg, mark⟩ := f
  obtain ⟨hsg, hmark⟩ := h
  dsimp only at hsg hmark
  cases mark with
  | none =>
    have hdigit : Mantissa isDigit m := isBaseDigit_ten ▸ hm
    obtain ⟨c, m, rfl⟩ := List.exists_cons_of_ne_nil hm.ne_nil
    have hc : isDigit c = true ∨ c = 0x2E := hdigit.mem List.mem_cons_self
    have hnox : hexPrefix (c :: (m ++ r)) = false := by
      refine hexPrefix_eq_false (fun b hb => ?_) hx
      rcases hdigit.mem (List.mem_cons_of_mem c hb) with hd | rfl
      · constructor <;> rintro rfl <;> cases hd
      · simp
    have htext : (⟨sg, none⟩ : Front).text = sg := List.append_nil sg
    rw [List.cons_append] at hmant' ⊢
    rw [htext]
    rcases strtod_cases (r := m ++ r) hsg hc with ⟨_, _, _, hhex, -, -⟩ |
      ⟨-, ⟨n', p', len', hm', heq⟩ | ⟨hm', -⟩⟩
    · rw [hnox] at hhex
      cases hhex
    · obtain ⟨rfl, rfl, rfl⟩ : n = n' ∧ p = p' ∧ len = len' := by simpa using hmant'.symm.trans hm'
      have hdrop : (c :: (m ++ r)).drop len = r := by
        rw [hlen, ← List.cons_append, List.drop_left]
      have hshift : (((⟨sg, none⟩ : Front).shift : Int)) * p = p := Int.one_mul _
      rw [heq, hdrop, hshift]
      rfl
    · exact absurd (hmant'.symm.trans hm') (by simp)
  | some x =>
    have hletter : x = 0x78 ∨ x = 0x58 := hmark x rfl
    have htext : (⟨sg, some x⟩ : Front).text ++ (m ++ r) = sg ++ 0x30 :: x :: (m ++ r) :=
      List.append_assoc sg _ _
    have hpre : hexPrefix (0x30 :: x :: (m ++ r)) = true := hexPrefix_iff.mpr ⟨x, _, rfl, hletter⟩
    rw [htext]
    rcases strtod_cases (c := 0x30) (r := x :: (m ++ r)) hsg (.inl rfl) with
      ⟨n', p', len', -, hm', heq⟩ | ⟨hnone, -⟩
    · rw [List.drop_succ_cons, List.drop_succ_cons, List.drop_zero] at hm'
      obtain ⟨rfl, rfl, rfl⟩ : n = n' ∧ p = p' ∧ len = len' := by simpa using hmant'.symm.trans hm'
      have hdrop : (0x30 :: x :: (m ++ r)).drop (2 + len) = r := by
        rw [hlen, Nat.add_comm 2]
        simp
      rw [heq, hdrop]
      rfl
    · rw [List.drop_succ_cons, List.drop_succ_cons, List.drop_zero] at hnone
      exact absurd (hmant'.symm.trans (hnone hpre)) (by simp)

/-- A number is a front, a mantissa and an exponent. The front has the sign and the prefix, and
tells the base. -/
theorem exists_of_rule (h : NumberRule str) : ∃ (f : Front) (m ex : Bytes),
    f.Ok ∧ str = f.text ++ (m ++ ex) ∧ Mantissa (isBaseDigit f.base) m ∧
      Exponent f.lower f.upper ex := by
  cases h with
  | @dec sg m ex hsg hm hex =>
    refine ⟨⟨sg, none⟩, m, ex, ⟨hsg, fun x hx => by cases hx⟩, ?_, isBaseDigit_ten ▸ hm, hex⟩
    rw [text, Option.elim_none, List.append_nil]
  | @hex sg m ex x hsg hx hm hex =>
    refine ⟨⟨sg, some x⟩, m, ex, ⟨hsg, ?_⟩, ?_, isBaseDigit_sixteen ▸ hm, hex⟩
    · rintro y ⟨⟩
      exact hx
    · rw [text, Option.elim_some, List.append_assoc]
      rfl

end

end Front

end Eltn
