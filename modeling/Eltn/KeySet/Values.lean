import Eltn.KeySet.Table

/-!
# The values of keys

A key stands for its bytes or for its `double` (`KeyValue`). `is_equal` compares the values of the
two keys, `Double.eq` for numbers; keys of one value have one hash as long as the value is `Plain`,
so that neither zero, with its two representations, nor a zero byte is in it.
-/

namespace Eltn

/-! ## Doubles -/

namespace Double

variable {a b c : Double}

/-- The comparison `==` of doubles: neither is a NaN, and they are the same or both zero. -/
theorem eq_iff : a.eq b = true ↔
    a.isNaN = false ∧ b.isNaN = false ∧ (a = b ∨ a.isZero = true ∧ b.isZero = true) := by
  cases a
  cases b
  simp [Double.eq, and_assoc]

/-- The comparison is symmetric. -/
theorem eq_comm (h : a.eq b = true) : b.eq a = true := by
  rw [eq_iff] at h ⊢
  exact ⟨h.2.1, h.1, h.2.2.imp Eq.symm And.symm⟩

/-- Doubles that compare equal are both zero or neither is. -/
theorem eq_isZero (h : a.eq b = true) : a.isZero = b.isZero := by
  obtain ⟨-, -, rfl | ⟨ha, hb⟩⟩ := eq_iff.mp h
  · rfl
  · rw [ha, hb]

/-- The comparison is transitive, as 0 and -0 are equal to the same doubles. -/
theorem eq_trans (hab : a.eq b = true) (hbc : b.eq c = true) : a.eq c = true := by
  have hzero := eq_isZero hab
  rw [eq_iff] at hab hbc ⊢
  refine ⟨hab.1, hbc.2.1, ?_⟩
  obtain ⟨-, -, rfl | ⟨ha, -⟩⟩ := hab
  · exact hbc.2.2
  obtain ⟨-, -, rfl | ⟨-, hc⟩⟩ := hbc
  · exact .inr ⟨ha, hzero ▸ ha⟩
  · exact .inr ⟨ha, hc⟩

/-- A value other than zero has one representation. -/
theorem eq_of_eq (h : a.eq b = true) (hzero : b.isZero = false) : a = b := by
  obtain ⟨-, -, hab | ⟨-, hb⟩⟩ := eq_iff.mp h
  · exact hab
  · rw [hzero] at hb
    cases hb

end Double

/-! ## Blocks of bytes -/

/-- `strncpy` writes as many bytes as it is told, padding with zero bytes. -/
theorem length_strncpy (s : Bytes) (n : Nat) : (strncpy s n).length = n := by
  induction n generalizing s with
  | zero => rfl
  | succ n ih =>
    rw [strncpy]
    split
    · exact List.length_replicate
    · rw [List.length_cons, ih]

/-- Without a zero byte, `strncpy` copies and `strncmp` compares all bytes. -/
theorem strncpy_length {s : Bytes} (h : 0 ∉ s) : strncpy s s.length = s := by
  induction s with
  | nil => rfl
  | cons c s ih =>
    obtain ⟨hc, hs⟩ : 0 ≠ c ∧ 0 ∉ s := by simpa using h
    simp [strncpy, hc.symm, ih hs]

/-- On strings of one length, none with a zero byte in the second, the comparison of a copy tells
the strings apart. -/
theorem strncmpEq_strncpy {a b : Bytes} (hlen : a.length = b.length) (hb : 0 ∉ b) :
    strncmpEq (strncpy a a.length) b a.length = true ↔ a = b := by
  induction a generalizing b with
  | nil => simp [strncmpEq, List.length_eq_zero_iff.mp hlen.symm]
  | cons c a ih =>
    cases b with
    | nil => cases hlen
    | cons d b =>
      obtain ⟨hd, hb⟩ : 0 ≠ d ∧ 0 ∉ b := by simpa using hb
      have ih := ih (Nat.succ.inj hlen) hb
      rw [List.length_cons, strncpy, List.headD_cons]
      split
      · next hc =>
        subst hc
        simp [strncmpEq, List.replicate_succ, hd]
      · next hc =>
        rw [strncmpEq, List.headD_cons, List.headD_cons, List.tail_cons, List.tail_cons]
        split
        · next hne => simp [hne]
        · next heq =>
          obtain rfl : c = d := by simpa using heq
          simp [ih]

/-! ## Keys -/

/-- What a key stands for: its string, or the value of its number. -/
inductive KeyValue where
  | string (text : Bytes)
  | number (val : Double)
deriving DecidableEq, Repr

/-- A value that all its keys represent in one way: no zero byte, neither zero nor NaN. -/
def KeyValue.Plain : KeyValue → Prop
  | .string text => 0 ∉ text
  | .number val => val.isZero = false ∧ val.isNaN = false

instance : DecidablePred KeyValue.Plain
  | .string text => inferInstanceAs (Decidable (0 ∉ text))
  | .number val => inferInstanceAs (Decidable (val.isZero = false ∧ val.isNaN = false))

/-- The value of the bytes passed for a key. -/
def keyValue (t : KeyType) (str : Bytes) : KeyValue :=
  if t = .number then .number (strtod str).1 else .string str

/-- `strtod` finds the value of the bytes passed, whatever is behind their block. -/
def ReadsExactly (t : KeyType) (str after : Bytes) : Prop :=
  t = .number → (strtod (strncpy str str.length ++ after)).1 = (strtod str).1

instance (t : KeyType) (str after : Bytes) : Decidable (ReadsExactly t str after) :=
  inferInstanceAs (Decidable (_ → _))

/-- The value of a key in the table. -/
def Key.value (k : Key) : KeyValue := if k.type = .number then .number k.num else .string k.str

/-- The hash of a value. -/
def KeyValue.hash : KeyValue → Nat
  | .string text => hashString text text.length
  | .number val => hashDouble val

/-- A key in the table with a plain value: it is in use, has all of its bytes, and its value is one
that `is_equal` tells apart. -/
structure Key.Plain (k : Key) : Prop where
  used : k.used = true
  len : k.len = k.str.length
  value : k.value.Plain

section
variable {t : KeyType} {str after : Bytes} {p k : Key}

/-- The hash of a key with a plain value is that of its value, so equal values have equal hashes. -/
theorem Key.Plain.hashvalue_eq (h : k.Plain) : hashvalue k = k.value.hash := by
  have hused := h.used
  cases htype : k.type with
  | empty => simp [Key.used, htype] at hused
  | string => simp [hashvalue, Key.value, KeyValue.hash, htype, h.len]
  | number => simp [hashvalue, Key.value, KeyValue.hash, htype]

/-- The key made of a plain value has this value. Its string is copied in full, as it has no zero
byte. -/
theorem initKey_plain (hvalue : initKey true t str after = some p) (ht : t ≠ .empty)
    (hread : ReadsExactly t str after) (hplain : (keyValue t str).Plain) :
    p.Plain ∧ p.value = keyValue t str := by
  cases hvalue
  have hval : Key.value
      { type := t, len := str.length, str := strncpy str str.length,
        num := if t = .number then (strtod (strncpy str str.length ++ after)).1 else ⟨0⟩ } =
      keyValue t str := by
    unfold keyValue at hplain ⊢
    cases t with
    | empty => exact absurd rfl ht
    | string => simp [Key.value, strncpy_length hplain]
    | number => simp [Key.value, hread rfl]
  exact ⟨⟨by simpa [Key.used] using ht, (length_strncpy _ _).symm, hval ▸ hplain⟩, hval⟩

/-- **`is_equal` compares values**: the key made for a string or a number is equal to a stored one
exactly if they stand for the same value. Two strings are compared by length and `strncmp`, two
numbers as doubles, and a string never equals a number. -/
theorem isEqual_iff (hvalue : initKey true t str after = some p) (ht : t ≠ .empty)
    (hread : ReadsExactly t str after) (hk : k.Plain) :
    isEqual p k = true ↔ keyValue t str = k.value := by
  have hused := hk.used
  have hplain := hk.value
  cases hvalue
  cases hktype : k.type with
  | empty => simp [Key.used, hktype] at hused
  | string =>
    have hval : k.value = .string k.str := by simp [Key.value, hktype]
    rw [hval] at hplain ⊢
    cases t with
    | empty => exact absurd rfl ht
    | number => simp [isEqual, keyValue, hktype]
    | string =>
      simp only [isEqual, keyValue, hktype, hk.len, ne_eq, not_true, if_false, Bool.and_eq_true,
        decide_eq_true_eq, KeyValue.string.injEq, reduceCtorEq]
      constructor
      · rintro ⟨hlen, hcmp⟩
        exact (strncmpEq_strncpy hlen hplain).mp hcmp
      · intro heq
        have hlen : str.length = k.str.length := by rw [heq]
        exact ⟨hlen, (strncmpEq_strncpy hlen hplain).mpr heq⟩
  | number =>
    have hval : k.value = .number k.num := by simp [Key.value, hktype]
    rw [hval] at hplain ⊢
    cases t with
    | empty => exact absurd rfl ht
    | string => simp [isEqual, keyValue, hktype]
    | number =>
      obtain ⟨hzero, hnan⟩ := hplain
      simp only [isEqual, keyValue, hktype, hread rfl, ne_eq, not_true, if_false, if_true,
        KeyValue.number.injEq]
      constructor
      · exact fun heq => Double.eq_of_eq heq hzero
      · intro heq
        exact Double.eq_iff.mpr ⟨heq ▸ hnan, hnan, .inl heq⟩

/-- A key equal to one with a plain value has the hash of this value. -/
theorem hashvalue_eq_of_isEqual (hvalue : initKey true t str after = some p) (ht : t ≠ .empty)
    (hread : ReadsExactly t str after) (hk : k.Plain) (h : isEqual p k = true) :
    hashvalue p = hashvalue k := by
  have hval := (isEqual_iff hvalue ht hread hk).mp h
  obtain ⟨hp, hpval⟩ := initKey_plain hvalue ht hread (hval ▸ hk.value)
  rw [hp.hashvalue_eq, hk.hashvalue_eq, hpval, hval]

end

end Eltn
