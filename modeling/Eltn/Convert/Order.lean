import Eltn.Convert

/-!
# Byte orders

The rest of `convert.c`: the byte order mark at the front of a text and the conversion of UTF-16 and
UTF-32 text to UTF-8, on a little-endian host. An `int` index that would exceed `INT_MAX` has no
defined value; the function has no result then.
-/

namespace Eltn

/-- `FMC_Byte_Order` (`convert.h:44`): bytes, 16-bit units and 32-bit units, and the orders of their
bytes. -/
inductive ByteOrder where
  | byte | ucs2 | ucs2Swap | ucs4 | ucs4Swap4321 | ucs4Swap3412 | ucs4Swap2143 | unknown
deriving DecidableEq, Repr

/-- `INT_MAX`. -/
def intMax : Nat := 2 ^ 31 - 1

/-! ## Words -/

/-- The `uint16_t` at the front of some bytes. -/
def halfWord (b : Bytes) : Nat := (b.getD 0 0).toNat + (b.getD 1 0).toNat * 0x100

/-- The `uint32_t` at the front of some bytes. -/
def word (b : Bytes) : Nat := halfWord b + halfWord (b.drop 2) * 0x10000

/-- A half word of the native order has its lower byte first. -/
theorem halfWord_cons (a b : UInt8) (s : Bytes) :
    halfWord (a :: b :: s) = a.toNat + b.toNat * 0x100 := rfl

/-- A word of the native order has its lower half word first. -/
theorem word_cons (a b c d : UInt8) (s : Bytes) : word (a :: b :: c :: d :: s) =
    a.toNat + b.toNat * 0x100 + (c.toNat + d.toNat * 0x100) * 0x10000 := rfl

/-- The bytes as an array of `n` `char16_t`, each in the native order. -/
def halfWords : Nat → Bytes → List Nat
  | 0, _ => []
  | n + 1, b => halfWord b :: halfWords n (b.drop 2)

/-- The bytes as an array of `n` `char32_t`, each in the native order. -/
def words : Nat → Bytes → List Nat
  | 0, _ => []
  | n + 1, b => word b :: words n (b.drop 4)

/-! ## The byte order mark -/

/-- `C_Conv_byte_order` (`convert.c:44`): the order and the length of the mark. The mark of UTF-8
takes three bytes and comes first; those of 32 and 16 bits are looked for in no text of less than
four. `0x0000FFEF` and `0xFFEF` are the constants of the source. -/
def byteOrder (inbuf : Bytes) : ByteOrder × Nat :=
  if inbuf.length ≥ 3 ∧ inbuf.getD 0 0 = 0xEF ∧ inbuf.getD 1 0 = 0xBB ∧ inbuf.getD 2 0 = 0xBF then
    (.byte, 3)
  else if inbuf.length ≥ 4 then
    if word inbuf = 0x0000FEFF then (.ucs4, 4)
    else if word inbuf = 0xFFFE0000 then (.ucs4Swap4321, 4)
    else if word inbuf = 0xFEFF0000 then (.ucs4Swap3412, 4)
    else if word inbuf = 0x0000FFEF then (.ucs4Swap2143, 4)
    else if halfWord inbuf = 0xFEFF then (.ucs2, 2)
    else if halfWord inbuf = 0xFFEF then (.ucs2Swap, 2)
    else (.unknown, 0)
  else (.unknown, 0)

/-! ## Flipping bytes -/

/-- `swap_bytes` (`convert.c:109`) on the bytes at `i` and `j`. -/
def swapBytes (i j : Nat) (buf : Bytes) : Bytes :=
  (buf.set i (buf.getD j 0)).set j (buf.getD i 0)

/-- The loop of the two flips, from `i` in steps of `step`: `swaps` is what a turn does, and there
is no result where `i`, an `int`, would overflow. -/
def flipLoop (step : Nat) (swaps : Nat → Bytes → Bytes) (length : Nat) :
    Nat → Nat → Bytes → Option Bytes
  | 0, _, buf => some buf
  | fuel + 1, i, buf =>
    if i < length then
      if i + step ≤ intMax then flipLoop step swaps length fuel (i + step) (swaps i buf) else none
    else some buf

/-- `flip_bytes_4` (`convert.c:116`): each turn swaps two pairs, at the offsets that the source has,
one past those of a word. -/
def flipBytes4 (length : Nat) (buf : Bytes) : Option Bytes :=
  flipLoop 4 (fun i buf => swapBytes (i + 2) (i + 3) (swapBytes (i + 1) (i + 4) buf)) length length
    0 buf

/-- `flip_bytes_2` (`convert.c:123`): each turn swaps one pair, at the offsets that the source has.
-/
def flipBytes2 (length : Nat) (buf : Bytes) : Option Bytes :=
  flipLoop 2 (fun i buf => swapBytes (i + 1) (i + 2) buf) length length 0 buf

/-! ## UTF-16 -/

/-- `is_high_surrogate` (`convert.c:170`). -/
def isHighSurrogate (v : Nat) : Bool := 0xD800 ≤ v && v ≤ 0xDBFF

/-- `is_low_surrogate` (`convert.c:174`). -/
def isLowSurrogate (v : Nat) : Bool := 0xDC00 ≤ v && v ≤ 0xDFFF

/-- `is_surrogate` (`convert.c:178`). -/
def isSurrogate (v : Nat) : Bool := 0xD800 ≤ v && v ≤ 0xDFFF

/-- `surrogate_pair` (`convert.c:182`): the code point of the two halves, ten bits of each. -/
def surrogatePair (high low : Nat) : Nat := 0x10000 + ((high - 0xD800) <<< 10) + (low - 0xDC00)

/-- `read_utf16` (`convert.c:187`): the code point and its result, the number of units read. Behind
a surrogate it reads a unit also at the end of the array. -/
def readUtf16 (inbuf : List Nat) (i : Nat) : Nat × Nat :=
  let cp := inbuf.getD i 0
  if !isSurrogate cp then (cp, 1)
  else
    let cp2 := inbuf.getD (i + 1) 0
    if isHighSurrogate cp && isLowSurrogate cp2 then (surrogatePair cp cp2, 2)
    else if isHighSurrogate cp2 && isLowSurrogate cp then (surrogatePair cp2 cp, 2)
    else (0, 0)

/-! ## Conversions -/

/-- The loop of `C_Conv_char16_to_8` (`convert.c:210`) with its two `int` indices; `j` is the length
of `out`, the bytes written so far. -/
def char16To8Loop (inbuf : List Nat) (outsz : Nat) : Nat → Nat → Bytes → Option Bytes
  | 0, _, out => some out
  | fuel + 1, i, out =>
    if i < inbuf.length ∧ out.length < outsz then
      let read := readUtf16 inbuf i
      if read.2 = 0 then some out
      else if intMax < i + read.2 then none
      else
        let written := writeUtf8 read.1 outsz out.length
        if written = [] then some out
        else if intMax < out.length + written.length then none
        else char16To8Loop inbuf outsz fuel (i + read.2) (out ++ written)
    else some out

/-- `C_Conv_char16_to_8` (`convert.c:210`): the bytes written to a block of `outsz` bytes. -/
def char16To8 (inbuf : List Nat) (outsz : Nat) : Option Bytes :=
  char16To8Loop inbuf outsz inbuf.length 0 []

/-- The loop of `C_Conv_char32_to_8` (`convert.c:234`), whose indices have the type `size_t`. It
ends where the block is full and at a character that `write_utf8` refuses. -/
def char32To8Loop (outsz : Nat) : List Nat → Bytes → Bytes
  | [], out => out
  | cp :: inbuf, out =>
    if out.length < outsz then
      let written := writeUtf8 cp outsz out.length
      if written = [] then out else char32To8Loop outsz inbuf (out ++ written)
    else out

/-- `C_Conv_char32_to_8` (`convert.c:234`): the bytes written to a block of `outsz` bytes. -/
def char32To8 (inbuf : List Nat) (outsz : Nat) : Bytes := char32To8Loop outsz inbuf []

/-- The `switch` of `C_Conv_to_char8` (`convert.c:250`): the copy of the input in native order and
that order. A text that needs no flip, in bytes or of unknown order, stays as it is. -/
def toNativeOrder (order : ByteOrder) (insz : Nat) (tmpbuf : Bytes) : Option (Bytes × ByteOrder) :=
  match order with
  | .ucs4Swap4321 => (flipBytes4 insz tmpbuf).map fun buf => (buf, .ucs4)
  | .ucs4Swap3412 => ((flipBytes4 insz tmpbuf).bind (flipBytes2 insz)).map fun buf => (buf, .ucs4)
  | .ucs4Swap2143 => (flipBytes2 insz tmpbuf).map fun buf => (buf, .ucs4)
  | .ucs2Swap => (flipBytes2 insz tmpbuf).map fun buf => (buf, .ucs2)
  | _ => some (tmpbuf, order)

/-- `C_Conv_to_char8` (`convert.c:250`): the bytes written to `outbuf`, as many as `*nwriteptr`
says, and `*nreadptr`. -/
def toChar8 (order : ByteOrder) (inbuf : Bytes) (outsz : Nat) : Option (Bytes × Nat) :=
  (toNativeOrder order inbuf.length (inbuf ++ [0])).bind fun (tmpbuf, baseOrder) =>
    if baseOrder = .ucs4 then
      let insz32 := inbuf.length / 4
      some (char32To8 (words insz32 tmpbuf) outsz, insz32 * 4)
    else if baseOrder = .ucs2 then
      let insz16 := inbuf.length / 2
      (char16To8 (halfWords insz16 tmpbuf) outsz).map fun out => (out, insz16 * 2)
    else
      let size := min inbuf.length outsz
      some (tmpbuf.take size, size)

end Eltn
