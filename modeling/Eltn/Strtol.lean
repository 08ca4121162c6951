import Eltn.Lexer.Values

/-!
# The integers `strtol` reads

`strtol` on a sign, digits of its base and a byte that ends them (`strtol_digits`), and on the `0x`
that base 16 allows before the digits (`strtol_prefix`). The library cuts the value off at the
bounds of `long`.
-/

namespace Eltn

/-- The 64-bit `long` nearest to a number. -/
def toLong (n : Int) : Int := max (-2 ^ 63) (min n (2 ^ 63 - 1))

/-- The number that a sign, empty or `-`, and digits denote. -/
def signedVal (base : Nat) (sg ds : Bytes) : Int :=
  if sg = [0x2D] then -digitsVal base ds else digitsVal base ds

/-- A value of 64 bits is a `long`. -/
theorem toLong_eq {n : Int} (hlo : -2 ^ 63 ≤ n) (hhi : n < 2 ^ 63) : toLong n = n := by
  have hmin : min n (2 ^ 63 - 1) = n := min_eq_left (Int.le_sub_one_of_lt hhi)
  rw [toLong, hmin, max_eq_right hlo]

section
variable {base : Nat} {c x : UInt8} {sg ds r : Bytes}

/-! ## Digits -/

/-- A digit is worth less than the base. -/
theorem digitVal_lt (hc : isBaseDigit base c = true) : (digitVal base c).getD 0 < base := by
  obtain ⟨v, hv⟩ := Option.isSome_iff_exists.mp hc
  rw [hv, Option.getD_some]
  simp only [digitVal] at hv
  grind

/-- Digits are worth less than the power of the base for their number. So three octal digits are
below 2⁹, and two hexadecimal ones below 2⁸. -/
theorem digitsVal_lt (hds : ∀ c ∈ ds, isBaseDigit base c = true) :
    digitsVal base ds < base ^ ds.length := by
  induction ds using List.reverseRecOn with
  | nil => simp [digitsVal]
  | append_singleton ds c ih =>
    obtain ⟨hds, hc⟩ := List.forall_mem_append.mp hds
    have hlt := ih hds
    have hone : digitsVal base [c] < base := by
      simpa [digitsVal] using digitVal_lt (hc c (List.mem_singleton_self c))
    rw [digitsVal_append, List.length_append, List.length_singleton, pow_one, pow_succ]
    calc digitsVal base ds * base + digitsVal base [c]
        < digitsVal base ds * base + base := Nat.add_lt_add_left hone _
      _ = (digitsVal base ds + 1) * base := by ring
      _ ≤ base ^ ds.length * base := Nat.mul_le_mul_right base hlt

/-- The digits of `strtol` to the base 8 are those of the C library. -/
theorem isBaseDigit_eight : isBaseDigit 8 = isOctdigit := by
  funext c
  simp only [isBaseDigit, digitVal, isOctdigit, UInt8.le_iff_toNat_le]
  grind

/-- The digits of all bases are hexadecimal digits. -/
theorem isBaseDigit_imp (hbase : base ≤ 16) (hc : isBaseDigit base c = true) :
    isHexdigit c = true := by
  obtain ⟨v, hv⟩ := Option.isSome_iff_exists.mp hc
  simp only [digitVal, isHexdigit, UInt8.le_iff_toNat_le] at hv ⊢
  grind

/-- A hexadecimal digit is taken for no space, no sign and no prefix, so `strtol` reads it as a
digit at once. -/
theorem isHexdigit_lead (hc : isHexdigit c = true) :
    isspace c = false ∧ c ≠ 0x2B ∧ c ≠ 0x2D ∧ c ≠ 0x78 ∧ c ≠ 0x58 := by
  simp only [isHexdigit, isspace, UInt8.le_iff_toNat_le, ← UInt8.toNat_inj, ne_eq] at hc ⊢
  grind

/-! ## `strtol` -/

/-- `strtol` behind the white space and the sign: the value of the digits there, behind `0x` in base
16 where a digit follows, with its sign and inside the range of a `long`. -/
theorem strtol_sign (hsg : sg = [] ∨ sg = [0x2D]) (hc : isHexdigit c = true) :
    strtol base (sg ++ c :: r) =
      toLong (signedVal base sg
        ((if base = 16 ∧ hexPrefix (c :: r) ∧ (((c :: r).drop 2).head?.any (isBaseDigit 16)) then
            (c :: r).drop 2 else c :: r).takeWhile (isBaseDigit base))) := by
  obtain ⟨hspace, hplus, hminus, -⟩ := isHexdigit_lead hc
  have hdrop : (sg ++ c :: r).dropWhile isspace = sg ++ c :: r := by
    rcases hsg with rfl | rfl
    · simp [hspace]
    · rfl
  have hsign : (signPart (sg ++ c :: r)).1 = decide (sg = [0x2D]) := by
    rcases hsg with rfl | rfl
    · simp [signPart, hplus, hminus]
    · rfl
  have hlen : (signPart (sg ++ c :: r)).2 = sg.length := by
    refine signPart_complete ⟨?_, ?_⟩ (hsg.imp_right .inr)
    · simpa using hplus
    · simpa using hminus
  rw [strtol, hdrop]
  rw [hsign, hlen, List.drop_left, signedVal, toLong]
  simp only [decide_eq_true_eq]
  split
  · rw [min_eq_left (by omega), max_comm]
  · rw [max_eq_right (by omega)]

/-- **`strtol` on digits**, up to the first byte that is none: their value with its sign, inside the
range of a `long`. In base 16 an `x` behind a lone zero is excluded, as it might be a prefix. -/
theorem strtol_digits (hbase : base ≤ 16) (hsg : sg = [] ∨ sg = [0x2D]) (hne : ds ≠ [])
    (hds : ∀ c ∈ ds, isBaseDigit base c = true) (hr : r.head?.any (isBaseDigit base) = false)
    (hx : base = 16 → r.head? ≠ some 0x78 ∧ r.head? ≠ some 0x58) :
    strtol base (sg ++ (ds ++ r)) = toLong (signedVal base sg ds) := by
  obtain ⟨c, ds, rfl⟩ := List.exists_cons_of_ne_nil hne
  have hhex := fun b hb => isBaseDigit_imp hbase (hds b hb)
  have hnoprefix : ¬ (base = 16 ∧ hexPrefix (c :: (ds ++ r)) = true ∧
      ((c :: (ds ++ r)).drop 2).head?.any (isBaseDigit 16) = true) := by
    rintro ⟨h16, hpre, -⟩
    obtain ⟨hlower, hupper⟩ := hx h16
    have hletter : ∀ b ∈ ds, b ≠ 0x78 ∧ b ≠ 0x58 := fun b hb =>
      (isHexdigit_lead (hhex b (List.mem_cons_of_mem c hb))).2.2.2
    rw [hexPrefix_eq_false hletter fun b hb =>
      ⟨fun heq => hlower (heq ▸ hb), fun heq => hupper (heq ▸ hb)⟩] at hpre
    cases hpre
  rw [List.cons_append, strtol_sign hsg (hhex c List.mem_cons_self), if_neg hnoprefix,
    ← List.cons_append, (takeWhile_run hds hr).1]

/-- **`strtol` on a hexadecimal number with its prefix**: the value of the digits behind it, with
the sign in front of it. -/
theorem strtol_prefix (hsg : sg = [] ∨ sg = [0x2D]) (hx : x = 0x78 ∨ x = 0x58) (hne : ds ≠ [])
    (hds : ∀ c ∈ ds, isBaseDigit 16 c = true) (hr : r.head?.any (isBaseDigit 16) = false) :
    strtol 16 (sg ++ 0x30 :: x :: (ds ++ r)) = toLong (signedVal 16 sg ds) := by
  have hpre : 16 = 16 ∧ hexPrefix (0x30 :: x :: (ds ++ r)) = true ∧
      ((0x30 :: x :: (ds ++ r)).drop 2).head?.any (isBaseDigit 16) = true := by
    refine ⟨rfl, hexPrefix_iff.mpr ⟨x, _, rfl, hx⟩, ?_⟩
    obtain ⟨c, ds, rfl⟩ := List.exists_cons_of_ne_nil hne
    simpa using hds c List.mem_cons_self
  rw [strtol_sign hsg rfl, if_pos hpre]
  show toLong (signedVal 16 sg ((ds ++ r).takeWhile (isBaseDigit 16))) = _
  rw [(takeWhile_run hds hr).1]

/-- The low byte of the value of digits, as the sources store it. -/
theorem strtol_byte (hbase : base ≤ 16) (hne : ds ≠ [])
    (hds : ∀ c ∈ ds, isBaseDigit base c = true) (hlt : digitsVal base ds < 2 ^ 63) :
    (strtol base ds % 256).toNat.toUInt8 = UInt8.ofNat (digitsVal base ds) := by
  have hval : strtol base ds = digitsVal base ds := by
    have hlong := strtol_digits (r := []) hbase (.inl rfl) hne hds rfl fun _ => ⟨by simp, by simp⟩
    rw [List.nil_append, List.append_nil] at hlong
    rw [hlong]
    exact toLong_eq (by simp only [signedVal]; omega) (by simp only [signedVal]; omega)
  have hmod : ((digitsVal base ds : Int) % 256).toNat = digitsVal base ds % 256 := by omega
  rw [hval, hmod]
  exact UInt8.ofNat_mod_size

/-! ## A byte that ends every number -/

/-- `x` is no part of what `strtol` reads. -/
def EndsNumber (x : UInt8) : Prop :=
  isspace x = false ∧ isHexdigit x = false ∧ x ≠ 0x2B ∧ x ≠ 0x2D ∧ x ≠ 0x78 ∧ x ≠ 0x58

/-- White space stands in front of such a byte. -/
theorem dropWhile_isspace (hx : isspace x = false) (w r : Bytes) :
    ∃ w', (w ++ x :: r).dropWhile isspace = w' ++ x :: r ∧ w'.length ≤ w.length := by
  refine ⟨w.dropWhile isspace, ?_, (List.dropWhile_sublist isspace).length_le⟩
  rw [List.dropWhile_append]
  split
  · next hall => rw [List.isEmpty_iff.mp hall, List.dropWhile_cons, hx, if_neg Bool.false_ne_true,
      List.nil_append]
  · rfl

/-- So does a sign, which is left behind at most: the byte that ends the number is still there,
behind no more bytes than before. -/
theorem drop_signPart (hx : EndsNumber x) (w r : Bytes) :
    ∃ w', (w ++ x :: r).drop (signPart (w ++ x :: r)).2 = w' ++ x :: r ∧ w'.length ≤ w.length := by
  obtain ⟨-, -, hplus, hminus, -⟩ := hx
  cases w with
  | nil =>
    refine ⟨[], ?_, le_rfl⟩
    simp [signPart, hplus, hminus]
  | cons c w =>
    have hsign : (signPart (c :: w ++ x :: r)).2 = 0 ∨ (signPart (c :: w ++ x :: r)).2 = 1 := by
      rw [List.cons_append, signPart]
      split
      · exact .inr rfl
      split
      · exact .inr rfl
      · exact .inl rfl
    rcases hsign with h | h
    · exact ⟨c :: w, by rw [h]; rfl, le_rfl⟩
    · exact ⟨w, by rw [h]; rfl, Nat.le_succ _⟩

/-- And a hexadecimal prefix, whose letter is not the byte that ends the number. -/
theorem drop_hexPrefix (hx : EndsNumber x) (w r : Bytes) (h : hexPrefix (w ++ x :: r) = true) :
    ∃ w', (w ++ x :: r).drop 2 = w' ++ x :: r ∧ w'.length ≤ w.length := by
  obtain ⟨-, hhex, -, -, hlower, hupper⟩ := hx
  obtain ⟨y, t, heq, hy⟩ := hexPrefix_iff.mp h
  rcases w with _ | ⟨a, _ | ⟨b, w⟩⟩
  · obtain rfl : x = 0x30 := (List.cons.inj heq).1
    cases hhex
  · obtain rfl : x = y := (List.cons.inj (List.cons.inj heq).2).1
    exact absurd hy (not_or.mpr ⟨hlower, hupper⟩)
  · exact ⟨w, rfl, by simp only [List.length_cons]; omega⟩

/-- A run ends before a byte that is not of its class. -/
theorem takeWhile_length_le {p : UInt8 → Bool} (hx : p x = false) (w r : Bytes) :
    ((w ++ x :: r).takeWhile p).length ≤ w.length := by
  rw [List.takeWhile_append]
  split
  · rw [List.takeWhile_cons, hx, if_neg Bool.false_ne_true, List.append_nil]
  · exact (List.takeWhile_prefix p).length_le

/-- **The value is bounded by the bytes in front** of a byte that ends every number: no digit counts
for more than 16, and the sign changes nothing of the bound. -/
theorem strtol_lt (hx : EndsNumber x) (w r : Bytes) :
    -(16 : Int) ^ w.length < strtol 16 (w ++ x :: r) ∧
      strtol 16 (w ++ x :: r) < (16 : Int) ^ w.length := by
  have hdigit : isBaseDigit 16 x = false := by
    rw [← Bool.not_eq_true]
    intro h
    exact Bool.false_ne_true (hx.2.1.symm.trans (isBaseDigit_imp (le_refl 16) h))
  obtain ⟨u, hu, hulen⟩ := dropWhile_isspace hx.1 w r
  obtain ⟨v, hv, hvlen⟩ := drop_signPart hx u r
  rw [strtol, hu]
  generalize (signPart (u ++ x :: r)).1 = sign at hv ⊢
  rw [hv]
  -- the digits stand in front of the byte, behind what is skipped
  obtain ⟨t, ht, htlen⟩ : ∃ t, (if 16 = 16 ∧ hexPrefix (v ++ x :: r) = true ∧
      ((v ++ x :: r).drop 2).head?.any (isBaseDigit 16) = true then (v ++ x :: r).drop 2
      else v ++ x :: r) = t ++ x :: r ∧ t.length ≤ v.length := by
    split
    · next h => exact drop_hexPrefix hx v r h.2.1
    · exact ⟨v, rfl, le_rfl⟩
  rw [ht]
  have hlen : ((t ++ x :: r).takeWhile (isBaseDigit 16)).length ≤ w.length :=
    (takeWhile_length_le hdigit t r).trans (htlen.trans (hvlen.trans hulen))
  have hlt : digitsVal 16 ((t ++ x :: r).takeWhile (isBaseDigit 16)) < 16 ^ w.length :=
    (digitsVal_lt fun c => List.mem_takeWhile_imp).trans_le
      (Nat.pow_le_pow_right (by decide) hlen)
  have hcast : (digitsVal 16 ((t ++ x :: r).takeWhile (isBaseDigit 16)) : Int) <
      (16 : Int) ^ w.length := by exact_mod_cast hlt
  have hpos : (0 : Int) < (16 : Int) ^ w.length :=
    (Int.natCast_nonneg _).trans_lt hcast
  split <;> omega

end

end Eltn
