import Mathlib.Algebra.Order.Ring.Nat
import Mathlib.Data.List.Basic
import Mathlib.Tactic.Ring

/-!
# UTF-8 of up to six bytes

The original scheme of RFC 2279: the leading byte tells how many bytes follow, and each of these
adds six bits. `decode` reads a sequence of numbers; it owes continuation bytes to the number it is
in. Any leading byte with the continuation bytes of a number is read as that number (`decode_form`).
-/

namespace Rfc2279

/-- The payload of a leading byte and the number of bytes that follow it, up to five. A continuation
byte leads nothing, and neither do the last two. -/
def lead (b : UInt8) : Option (Nat × Nat) :=
  if b < 0x80 then some (b.toNat, 0)
  else if b < 0xC0 then none
  else if b < 0xE0 then some (b.toNat % 0x20, 1)
  else if b < 0xF0 then some (b.toNat % 0x10, 2)
  else if b < 0xF8 then some (b.toNat % 0x08, 3)
  else if b < 0xFC then some (b.toNat % 0x04, 4)
  else if b < 0xFE then some (b.toNat % 0x02, 5)
  else none

/-- A byte that continues a number. -/
def isContinuation (b : UInt8) : Bool := 0x80 ≤ b && b < 0xC0

/-- The numbers of some bytes, when `k` continuation bytes are owed to a number that stands at
`v`. -/
def decodeFrom : List UInt8 → Nat → Nat → Option (List Nat)
  | [], k, _ => if k = 0 then some [] else none
  | b :: s, 0, _ =>
    match lead b with
    | none => none
    | some (v, k) => if k = 0 then (decodeFrom s 0 0).map (v :: ·) else decodeFrom s k v
  | b :: s, k + 1, v =>
    if !isContinuation b then none
    else if k = 0 then (decodeFrom s 0 0).map ((v * 64 + b.toNat % 64) :: ·)
    else decodeFrom s k (v * 64 + b.toNat % 64)

/-- The numbers of some bytes. -/
def decode (s : List UInt8) : Option (List Nat) := decodeFrom s 0 0

/-- The continuation bytes of a number, the highest six bits first. -/
def continuation : Nat → Nat → List UInt8
  | 0, _ => []
  | k + 1, v => UInt8.ofNat (v / 64 ^ k % 64 + 0x80) :: continuation k v

section
variable {v hi k : Nat} {b : UInt8}

/-- A continuation byte carries six bits. -/
theorem toNat_continuation (n : Nat) :
    (UInt8.ofNat (n % 64 + 0x80)).toNat = n % 64 + 0x80 := by
  rw [UInt8.toNat_ofNat']
  omega

/-- It is recognized by its two highest bits. -/
theorem isContinuation_ofNat (n : Nat) : isContinuation (UInt8.ofNat (n % 64 + 0x80)) = true := by
  have hnat := toNat_continuation n
  simp only [isContinuation, UInt8.le_iff_toNat_le, UInt8.lt_iff_toNat_lt, hnat,
    Bool.and_eq_true, decide_eq_true_eq]
  constructor
  · exact Nat.le_add_left _ _
  · show n % 64 + 0x80 < 0xC0
    omega

/-- The continuation bytes that are owed complete the number: they shift its upper part `hi` to the
left, six bits a byte. -/
theorem decodeFrom_continuation (k hi v : Nat) (s : List UInt8) :
    decodeFrom (continuation (k + 1) v ++ s) (k + 1) hi =
      (decode s).map ((hi * 64 ^ (k + 1) + v % 64 ^ (k + 1)) :: ·) := by
  induction k generalizing hi with
  | zero =>
    have hcont := isContinuation_ofNat (v / 64 ^ 0)
    have hval : hi * 64 + (UInt8.ofNat (v / 64 ^ 0 % 64 + 0x80)).toNat % 64 =
        hi * 64 ^ (0 + 1) + v % 64 ^ (0 + 1) := by
      rw [toNat_continuation]
      omega
    rw [continuation, continuation, List.cons_append, List.nil_append, decodeFrom, hcont, hval]
    rfl
  | succ k ih =>
    have hcont := isContinuation_ofNat (v / 64 ^ (k + 1))
    have hval : (hi * 64 + (UInt8.ofNat (v / 64 ^ (k + 1) % 64 + 0x80)).toNat % 64) *
        64 ^ (k + 1) + v % 64 ^ (k + 1) = hi * 64 ^ (k + 1 + 1) + v % 64 ^ (k + 1 + 1) := by
      have hbyte : (v / 64 ^ (k + 1) % 64 + 0x80) % 64 = v / 64 ^ (k + 1) % 64 := by omega
      rw [toNat_continuation, hbyte, Nat.pow_succ 64 (k + 1), Nat.mod_mul]
      ring
    rw [continuation, List.cons_append, decodeFrom, hcont, ← hval, ← ih]
    rfl

/-- **A form is read back** as its number, whatever follows it: the payload of its first byte in
front of the bits of the others. -/
theorem decode_form (hb : lead b = some (hi, k + 1)) (v : Nat) (s : List UInt8) :
    decode (b :: (continuation (k + 1) v ++ s)) =
      (decode s).map ((hi * 64 ^ (k + 1) + v % 64 ^ (k + 1)) :: ·) := by
  rw [← decodeFrom_continuation, decode, decodeFrom, hb]
  rfl

end

end Rfc2279
