import Eltn.KeySet.Basic
import Eltn.Lib.Signed

/-!
# The bounds of the hash

`hash_string` on the integers of the machine, and the two loops over the table on checked slots: in
`Guarded` a signed overflow has no result, nor has a slot that is not below `arraysize`. The hash
value stays between minus and plus the modulus and the power between zero and the modulus
(`HashBounds`), so that no key of less than 2³¹ bytes overflows, and every slot is in the table
(`hash_guarded`).
-/

namespace Eltn

namespace Guarded

/-! ## The guarded functions -/

/-- The loop of `hash_string`, from the byte `str[i]` on. The characters and the counter are of the
type `int`, which has 32 bits. -/
def hashLoop : Bytes → Int → Int → Int → Option Int
  | [], _, hash, _ => some hash
  | c :: str, i, hash, pow => do
    let offset ← Signed.checked 32 (toChar c - 0x61)
    let weight ← Signed.checked 32 (offset + 1)
    let term ← Signed.checked 64 (weight * pow)
    let sum ← Signed.checked 64 (hash + term)
    let hash ← Signed.checked 64 (sum.tmod hashM)
    let product ← Signed.checked 64 (pow * hashP)
    let pow ← Signed.checked 64 (product.tmod hashM)
    let i ← Signed.checked 32 (i + 1)
    hashLoop str i hash pow

/-- `hash_string`, with a result where its loop has one. The mask is the one of the source, on a
word of 64 bits. -/
def hashString (str : Bytes) (len : Nat) : Option Nat :=
  if len = 0 then some 0
  else (hashLoop (str.take len) 0 0 1).map fun hash =>
    (0x7FFFFFFF#64 &&& BitVec.ofInt 64 hash).toNat

/-- `hash_double`. -/
def hashDouble (val : Double) : Option Nat := hashString val.bytes 8

/-- `hashvalue`, with a result where the hash of its bytes has one. -/
def hashvalue (value : Key) : Option Nat :=
  match value.type with
  | .number => hashDouble value.num
  | _ => hashString value.str value.len

/-- An index into the array. -/
def slot (self : KeySet) (index : Nat) : Option Nat :=
  if index < self.arraysize then some index else none

/-- `Key_Set_has_key`, on the key that `init_key` made. A slot outside of the array has no result,
and the walk has none where it does not come back. -/
def hasKey (value : Key) (self : KeySet) : Option Bool := do
  let hash ← hashvalue value
  let original ← slot self (hash % self.arraysize)
  let op := self.array.getD original {}
  if op.type = .empty then some false
  else if isEqual value op then some true
  else
    let index ← Probing.walk self.arraysize original
      (fun index => isEqual value (self.array.getD index {})) self.arraysize original
    some (index ≠ original)

/-- `add_key`: the key goes into its own slot or the empty one that the walk comes to. `slot` gives
the index as an `int`, where it is inside the array. -/
def addKeyEntry (p : Key) (self : KeySet) : Option (Bool × KeySet) := do
  let hash ← hashvalue p
  let original ← slot self (hash % self.arraysize)
  let index ←
    if (self.array.getD original {}).type ≠ .empty then
      Probing.walk self.arraysize original
        (fun index => (self.array.getD index {}).type = .empty) self.arraysize original
    else some original
  if (self.array.getD original {}).type ≠ .empty ∧ index = original then some (false, self)
  else some (true, { self with array := self.array.set index p, nitems := self.nitems + 1 })

/-! ## The hash -/

/-- What the loop of `hash_string` keeps: both of its values are below the modulus, and the power is
not negative. -/
structure HashBounds (hash pow : Int) : Prop where
  hash : Signed.Reduced hashM hash
  nonneg : 0 ≤ pow
  lt : pow < hashM

section
variable {hash pow i : Int} {str : Bytes}

/-- A `char` is signed and has eight bits. -/
theorem toChar_bounds (c : UInt8) : -128 ≤ toChar c ∧ toChar c ≤ 127 := by
  have hlo : -128 ≤ toChar c := Int.le_bmod (by decide)
  have hhi : toChar c < 128 := Int.bmod_lt (by decide)
  exact ⟨hlo, Int.lt_add_one_iff.mp hhi⟩

/-- One turn. -/
theorem HashBounds.turn (h : HashBounds hash pow) (c : UInt8) :
    HashBounds ((hash + (toChar c - 0x61 + 1) * pow).tmod hashM) ((pow * hashP).tmod hashM) where
  hash := Signed.reduced_tmod (by decide) _
  nonneg := Int.tmod_nonneg _ (Int.mul_nonneg h.nonneg (by decide))
  lt := Int.tmod_lt_of_pos _ (by decide)

/-- The sum of a turn and its product: a character is at most 224 away from the `a` it is counted
from. -/
theorem HashBounds.fits (h : HashBounds hash pow) (c : UInt8) :
    Signed.Fits 64 ((toChar c - 0x61 + 1) * pow) ∧
      Signed.Fits 64 (hash + (toChar c - 0x61 + 1) * pow) ∧ Signed.Fits 64 (pow * hashP) := by
  obtain ⟨hlo, hhi⟩ := toChar_bounds c
  have hbound : (224 + 1) * hashM ≤ 2 ^ (64 - 1) := by decide
  have hzero : Signed.Reduced hashM 0 := Signed.reduced_zero (by decide)
  have hsum {n : Int} (hn : Signed.Reduced hashM n) :
      Signed.Fits 64 (n + (toChar c - 0x61 + 1) * pow) :=
    (hn.add_mul h.nonneg h.lt (by omega) (by omega)).fits hbound
  refine ⟨?_, hsum h.hash, ?_⟩
  · rw [← Int.zero_add ((toChar c - 0x61 + 1) * pow)]
    exact hsum hzero
  · have hproduct : Signed.Reduced ((224 + 1) * hashM) (0 + hashP * pow) :=
      hzero.add_mul h.nonneg h.lt (by decide) (by decide)
    rw [Int.mul_comm, ← Int.zero_add (hashP * pow)]
    exact hproduct.fits hbound

/-- **The loop does not overflow**, as long as its counter does not: every sum and product is inside
its type, and the result is the hash. By induction on the bytes. -/
theorem hashLoop_eq (h : HashBounds hash pow) (hi : 0 ≤ i) (hlen : i + str.length < 2 ^ 31) :
    hashLoop str i hash pow = some (Eltn.hashLoop str hash pow) := by
  induction str generalizing i hash pow with
  | nil => rfl
  | cons c str ih =>
    have hturn := h.turn c
    obtain ⟨hterm, hsum, hproduct⟩ := h.fits c
    obtain ⟨hlo, hhi⟩ := toChar_bounds c
    rw [List.length_cons, Nat.cast_succ] at hlen
    have hoffset : Signed.Fits 32 (toChar c - 0x61) := ⟨by omega, by omega⟩
    have hweight : Signed.Fits 32 (toChar c - 0x61 + 1) := ⟨by omega, by omega⟩
    have hcount : Signed.Fits 32 (i + 1) := ⟨by omega, by omega⟩
    have hremainder (n : Int) : Signed.Fits 64 (n.tmod hashM) :=
      (Signed.reduced_tmod (by decide) n).fits (by decide)
    rw [hashLoop, Eltn.hashLoop, ← ih hturn (Int.le_add_one hi) (by omega)]
    simp only [Option.bind_eq_bind, Option.bind_some, Signed.checked_eq hoffset,
      Signed.checked_eq hweight, Signed.checked_eq hterm, Signed.checked_eq hsum,
      Signed.checked_eq hproduct, Signed.checked_eq (hremainder _), Signed.checked_eq hcount]

/-- The mask keeps the low 31 bits, those of a negative value too. -/
theorem mask_eq (hash : Int) :
    (0x7FFFFFFF#64 &&& BitVec.ofInt 64 hash).toNat = (hash % 2 ^ 31).toNat := by
  have hmask : (0x7FFFFFFF#64).toNat = 2 ^ 31 - 1 := rfl
  rw [BitVec.toNat_and, hmask, Nat.and_comm, Nat.and_two_pow_sub_one_eq_mod, BitVec.toNat_ofInt]
  omega

/-- On keys of less than 2³¹ bytes no arithmetic of `hash_string` overflows, and the guarded hash is
the hash. -/
theorem hashString_eq {len : Nat} (hlen : str.length < 2 ^ 31) :
    hashString str len = some (Eltn.hashString str len) := by
  have hstart : HashBounds 0 1 := ⟨Signed.reduced_zero (by decide), by decide, by decide⟩
  have htake : (str.take len).length ≤ str.length := List.length_take_le' len str
  rw [hashString, Eltn.hashString]
  split
  · rfl
  · rw [hashLoop_eq hstart (le_refl 0) (by omega), Option.map_some, mask_eq]

/-- The mask leaves 31 bits. -/
theorem hashString_lt (str : Bytes) (len : Nat) : Eltn.hashString str len < 2 ^ 31 := by
  rw [Eltn.hashString]
  split
  · decide
  · omega

end

/-! ## Probing -/

section
variable {value p : Key} {self : KeySet}

/-- So the guarded hash of a key is its hash. -/
theorem hashvalue_eq (hlen : value.str.length < 2 ^ 31) :
    hashvalue value = some (Eltn.hashvalue value) := by
  have hbytes : value.num.bytes.length = 8 := by rw [Double.bytes, List.length_map]; rfl
  rw [hashvalue, Eltn.hashvalue]
  cases value.type with
  | number => exact hashString_eq (by rw [hbytes]; decide)
  | empty | string => exact hashString_eq hlen

/-- Every hash lies below 2³¹. -/
theorem hashvalue_lt (value : Key) : Eltn.hashvalue value < 2 ^ 31 := by
  rw [Eltn.hashvalue]
  cases value.type with
  | number | empty | string => exact hashString_lt _ _

/-- A hash, taken modulo the size of the array, is an index into it. -/
theorem slot_mod (hsize : 0 < self.arraysize) (hash : Nat) :
    slot self (hash % self.arraysize) = some (hash % self.arraysize) :=
  if_pos (Nat.mod_lt hash hsize)

/-- A slot is used exactly if its type is not `KEY_SET_EMPTY`. -/
theorem used_iff : p.used = true ↔ p.type ≠ .empty := by
  rw [Key.used, decide_eq_true_eq]

/-- A search that passes over its first slot does not end there. -/
theorem search_ne {n orig j : Nat} {stop : Nat → Bool} (horig : orig < n)
    (hstop : stop orig = false) (h : Probing.search n orig stop n orig = some j) : j ≠ orig := by
  rintro rfl
  rw [(Probing.search_some h (Nat.zero_lt_of_lt horig)).2] at hstop
  cases hstop

/-- **`Key_Set_has_key` stays in the table**, and looks the key up in an array of that size, for
every key of less than 2³¹ bytes. -/
theorem hasKey_eq (hlen : value.str.length < 2 ^ 31) (hsize : 0 < self.arraysize) :
    ∃ found, hasKey value self = some found ∧ (self.array.length = self.arraysize →
      found = Probing.find Key.used {} (isEqual value) (Eltn.hashvalue value % self.arraysize)
        self.array) := by
  have horig : Eltn.hashvalue value % self.arraysize < self.arraysize := Nat.mod_lt _ hsize
  rw [hasKey, hashvalue_eq hlen, Option.bind_eq_bind, Option.bind_some, slot_mod hsize,
    Option.bind_some]
  generalize Eltn.hashvalue value % self.arraysize = original at horig ⊢
  dsimp only
  rw [Probing.find]
  cases hused : (self.array.getD original {}).used with
  | false =>
    have hempty : (self.array.getD original {}).type = .empty := by
      rwa [← Bool.not_eq_true, used_iff, not_not] at hused
    rw [if_pos hempty]
    exact ⟨false, rfl, fun _ => rfl⟩
  | true =>
    rw [if_neg (used_iff.mp hused)]
    cases hequal : isEqual value (self.array.getD original {}) with
    | true => exact ⟨true, rfl, fun _ => rfl⟩
    | false =>
      rw [if_neg Bool.false_ne_true, Probing.walk_eq horig, Option.bind_some]
      refine ⟨_, rfl, ?_⟩
      intro harray
      rw [harray]
      cases hsearch : Probing.search self.arraysize original
          (fun index => isEqual value (self.array.getD index {})) self.arraysize original with
      | none => simp
      | some j => simpa using search_ne horig hequal hsearch

/-- **`add_key` stays in the table**, and puts the key into an array of that size, for every key of
less than 2³¹ bytes. The walk for a free slot is `Probing.search`, as in the model without bounds,
and it comes back to the slot it began at only when none is free. -/
theorem addKeyEntry_eq (hlen : p.str.length < 2 ^ 31) (hsize : 0 < self.arraysize) :
    ∃ added, addKeyEntry p self = some added ∧ (self.array.length = self.arraysize →
      added = self.addKeyEntry p) := by
  have horig : Eltn.hashvalue p % self.arraysize < self.arraysize := Nat.mod_lt _ hsize
  have hinsert (harray : self.array.length = self.arraysize) :
      Probing.insert Key.used Eltn.hashvalue {} p self.array =
        if (self.array.getD (Eltn.hashvalue p % self.arraysize) {}).used then
          (Probing.search self.arraysize (Eltn.hashvalue p % self.arraysize)
            (fun index => !(self.array.getD index {}).used) self.arraysize
            (Eltn.hashvalue p % self.arraysize)).map (self.array.set · p)
        else some (self.array.set (Eltn.hashvalue p % self.arraysize) p) := by
    rw [Probing.insert, harray]
  have hfree : (fun index => decide ((self.array.getD index {}).type = .empty)) =
      fun index => !(self.array.getD index {}).used := by
    funext index
    simp [Key.used]
  rw [addKeyEntry, hashvalue_eq hlen, Option.bind_eq_bind, Option.bind_some, slot_mod hsize,
    Option.bind_some, hfree]
  generalize Eltn.hashvalue p % self.arraysize = original at horig hinsert ⊢
  cases hused : (self.array.getD original {}).used with
  | false =>
    have hempty : ¬ (self.array.getD original {}).type ≠ .empty := by
      rw [← used_iff, hused]
      exact Bool.false_ne_true
    rw [hused, if_neg Bool.false_ne_true] at hinsert
    rw [if_neg hempty, Option.bind_some]
    refine ⟨_, if_neg fun h => hempty h.1, ?_⟩
    intro harray
    rw [KeySet.addKeyEntry, hinsert harray]
  | true =>
    have hfull := used_iff.mp hused
    rw [hused, if_pos rfl] at hinsert
    rw [if_pos hfull, Probing.walk_eq horig, Option.bind_some]
    refine ⟨_, (apply_ite some _ _ _).symm, ?_⟩
    intro harray
    rw [KeySet.addKeyEntry, hinsert harray]
    cases hsearch : Probing.search self.arraysize original
        (fun index => !(self.array.getD index {}).used) self.arraysize original with
    | none => exact if_pos ⟨hfull, rfl⟩
    | some j =>
      have hne := search_ne horig (by rw [hused]; rfl) hsearch
      exact if_neg fun h => hne h.2

end

/-- **Hashing does not overflow and stays in the table.** For a key of less than 2³¹ bytes, and a
table of any size but zero, no sum and no product of the hash overflows, the hash value has 31 bits,
and every slot that is looked at is below the size of the table. -/
theorem hash_guarded (value : Key) (hlen : value.str.length < 2 ^ 31) (self : KeySet)
    (hsize : 0 < self.arraysize) :
    hashString value.str value.str.length =
        some (Eltn.hashString value.str value.str.length) ∧
      hashvalue value = some (Eltn.hashvalue value) ∧ Eltn.hashvalue value < 2 ^ 31 ∧
      (∃ found, hasKey value self = some found ∧ (self.array.length = self.arraysize →
        found = Probing.find Key.used {} (isEqual value) (Eltn.hashvalue value % self.arraysize)
          self.array)) ∧
      ∃ added, addKeyEntry value self = some added ∧ (self.array.length = self.arraysize →
        added = self.addKeyEntry value) :=
  ⟨hashString_eq hlen, hashvalue_eq hlen, hashvalue_lt value, hasKey_eq hlen hsize,
    addKeyEntry_eq hlen hsize⟩

/-- Three characters in front of `a`, the last one negative, and a new set. -/
theorem hash_guarded_new :
    hashString [0x41, 0x20, 0x80] 3 = some (Eltn.hashString [0x41, 0x20, 0x80] 3) ∧
      addKeyEntry ⟨.string, 3, [0x41, 0x20, 0x80], ⟨0⟩⟩ {} =
        some (KeySet.addKeyEntry ⟨.string, 3, [0x41, 0x20, 0x80], ⟨0⟩⟩ {}) := by
  obtain ⟨hhash, -, -, -, added, hadded, hsame⟩ :=
    hash_guarded ⟨.string, 3, [0x41, 0x20, 0x80], ⟨0⟩⟩ (by decide) {} (by decide)
  exact ⟨hhash, hadded.trans (congrArg some (hsame rfl))⟩

end Guarded

end Eltn
