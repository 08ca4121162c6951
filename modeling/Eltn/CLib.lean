import Mathlib.Algebra.Ring.Int.Defs
import Mathlib.Algebra.Ring.Nat
import Mathlib.Data.Nat.Log

/-!
# The C library functions the sources call

Counted byte strings are lists of bytes. A pointer handed to a `str` function is the list of bytes
from the pointer on; a read past the end of the list reads the terminating zero byte. `double` is
its IEEE 754 binary64 word, so that equality, the classification macros and the eight bytes of the
object are functions of the word.
-/

namespace Eltn

/-- A counted byte string. -/
abbrev Bytes := List UInt8

/-- The bytes of a string literal of the sources, without its terminator. -/
def ascii (s : String) : Bytes := s.toList.map Char.toUInt8

/-! ## Strings -/

/-- `strncmp(a, b, n) == 0`: the strings are equal up to the first `n` bytes or up to a zero byte
that they have in common. A string that has ended reads as its terminator. -/
def strncmpEq : Bytes → Bytes → Nat → Bool
  | _, _, 0 => true
  | a, b, n + 1 =>
    if a.headD 0 ≠ b.headD 0 then false
    else if a.headD 0 = 0 then true
    else strncmpEq a.tail b.tail n

/-- `strncpy(dst, s, n)`: the first `n` bytes of `s` up to a zero byte, padded with zero bytes. -/
def strncpy : Bytes → Nat → Bytes
  | _, 0 => []
  | s, n + 1 => if s.headD 0 = 0 then List.replicate (n + 1) 0 else s.headD 0 :: strncpy s.tail n

/-- `strchr(s, c)` for `c ≠ 0`: the string from the first `c` on, if `c` comes before the end. -/
def strchr : Bytes → UInt8 → Option Bytes
  | [], _ => none
  | x :: s, c => if x = c then some (x :: s) else if x = 0 then none else strchr s c

/-- `strcmp(a, b)` as the sign of the first difference, bytes compared as `unsigned char`. -/
def strcmp : Bytes → Bytes → Ordering
  | [], [] => .eq
  | [], y :: _ => if y = 0 then .eq else .lt
  | x :: _, [] => if x = 0 then .eq else .gt
  | x :: a, y :: b => if x ≠ y then compare x y else if x = 0 then .eq else strcmp a b

/-- `bsearch(key, xs, ...) != NULL` with `cmp` the comparison of the key with an element: the search
halves the array as often as `fuel` says, and the length of the array is enough. -/
def bsearch {α : Type} (cmp : α → Ordering) : Nat → List α → Bool
  | 0, _ => false
  | fuel + 1, xs =>
    match xs[xs.length / 2]? with
    | none => false
    | some x =>
      match cmp x with
      | .eq => true
      | .lt => bsearch cmp fuel (xs.take (xs.length / 2))
      | .gt => bsearch cmp fuel (xs.drop (xs.length / 2 + 1))

/-- `isspace` in the C locale. -/
def isspace (c : UInt8) : Bool := c = 0x20 || (0x09 ≤ c && c ≤ 0x0D)

/-- The value of a digit of the given base, at most 16, the letters in either case; nothing for
every other byte. -/
def digitVal (base : Nat) (c : UInt8) : Option Nat :=
  let v :=
    if 0x30 ≤ c ∧ c ≤ 0x39 then c.toNat - 0x30          -- '0' .. '9'
    else if 0x41 ≤ c ∧ c ≤ 0x46 then c.toNat - 0x41 + 10  -- 'A' .. 'F'
    else if 0x61 ≤ c ∧ c ≤ 0x66 then c.toNat - 0x61 + 10  -- 'a' .. 'f'
    else 16
  if v < base then some v else none

/-- Whether a byte is a digit of the base. -/
def isBaseDigit (base : Nat) (c : UInt8) : Bool := (digitVal base c).isSome

/-- The number a string of digits denotes. -/
def digitsVal (base : Nat) (ds : Bytes) : Nat :=
  ds.foldl (fun n c => n * base + (digitVal base c).getD 0) 0

/-- An optional sign: whether it is `-`, and its length. -/
def signPart : Bytes → Bool × Nat
  | c :: _ => if c = 0x2D then (true, 1) else if c = 0x2B then (false, 1) else (false, 0)
  | [] => (false, 0)

/-- Whether the string starts with `0x` or `0X`. -/
def hexPrefix : Bytes → Bool
  | a :: b :: _ => a = 0x30 && (b = 0x78 || b = 0x58)
  | _ => false

/-- `strtol(s, NULL, base)` for the bases 8, 10 and 16, with a 64-bit `long`: blanks, a sign, `0x`
or `0X` in base 16 where a digit follows, and the digits. Without digits it gives zero, and beyond
the range of a `long` its nearest bound. -/
def strtol (base : Nat) (s : Bytes) : Int :=
  let s := s.dropWhile isspace
  let sg := signPart s
  let s := s.drop sg.2
  let s :=
    if base = 16 ∧ hexPrefix s ∧ ((s.drop 2).head?.any (isBaseDigit 16)) then s.drop 2 else s
  let n : Int := digitsVal base (s.takeWhile (isBaseDigit base))
  if sg.1 then max (-n) (-2 ^ 63) else min n (2 ^ 63 - 1)

/-! ## Doubles -/

/-- A `double`: its IEEE 754 binary64 word. -/
structure Double where
  bits : BitVec 64
deriving DecidableEq, Repr

namespace Double

/-- The biased exponent. -/
def exponent (d : Double) : Nat := d.bits.toNat / 2 ^ 52 % 2 ^ 11

/-- The fraction bits. -/
def fraction (d : Double) : Nat := d.bits.toNat % 2 ^ 52

/-- `isnan`: all bits of the exponent are set, and one of the fraction at least. -/
def isNaN (d : Double) : Bool := d.exponent = 2047 && d.fraction ≠ 0

/-- `isinf`: all bits of the exponent are set, and none of the fraction. -/
def isInf (d : Double) : Bool := d.exponent = 2047 && d.fraction = 0

/-- `+0` or `-0`. -/
def isZero (d : Double) : Bool := d.bits.toNat % 2 ^ 63 = 0

/-- C's `==`: no NaN equals anything, the two zeros are equal, and every other value has one
representation only. -/
def eq (a b : Double) : Bool :=
  !a.isNaN && !b.isNaN && (a.bits = b.bits || (a.isZero && b.isZero))

/-- The bytes of the object on a little-endian host. -/
def bytes (d : Double) : Bytes :=
  (List.range 8).map fun i => UInt8.ofNat (d.bits.toNat / 2 ^ (8 * i))

/-- The word with the given sign and magnitude bits, the sign being the bit in front of the others.
-/
def ofMagnitude (neg : Bool) (m : Nat) : Double := ⟨BitVec.ofNat 64 (m + if neg then 2 ^ 63 else 0)⟩

/-- The double nearest to `num / den`, and of two equally near ones the one whose last bit is zero.
Below the normal range the unit stays that of the least positive double, and what rounds to a value
beyond the range is infinite. -/
def round (neg : Bool) (num den : Nat) : Double :=
  if num = 0 then ofMagnitude neg 0
  else
    let l : Int := (Nat.log 2 num : Int) - Nat.log 2 den
    -- 2 ^ e ≤ num / den < 2 ^ (e + 1)
    let e : Int := if den * 2 ^ l.toNat ≤ num * 2 ^ (-l).toNat then l else l - 1
    -- the unit in the last place is 2 ^ k
    let k : Int := max (e - 52) (-1074)
    let n := num * 2 ^ (-k).toNat
    let d := den * 2 ^ k.toNat
    let q := n / d
    let r := n % d
    let q := if d < 2 * r ∨ (2 * r = d ∧ q % 2 = 1) then q + 1 else q
    let m := if q < 2 ^ 52 then q else (k + 1075).toNat * 2 ^ 52 + (q - 2 ^ 52)
    ofMagnitude neg (min m (2047 * 2 ^ 52))

/-- The double nearest to `m * base ^ e`. -/
def ofScaled (neg : Bool) (m base : Nat) (e : Int) : Double :=
  round neg (m * base ^ e.toNat) (base ^ (-e).toNat)

end Double

/-- Digits with at most one point among them: the value of all digits, how many of them follow the
point, and the length read. -/
def mantissaPart (base : Nat) (s : Bytes) : Option (Nat × Nat × Nat) :=
  let int := s.takeWhile (isBaseDigit base)
  let r := s.drop int.length
  let dot := r.head? = some 0x2E
  let frac := if dot then r.tail.takeWhile (isBaseDigit base) else []
  if int = [] ∧ frac = [] then none
  else some (digitsVal base (int ++ frac), frac.length,
    int.length + if dot then 1 + frac.length else 0)

/-- An optional exponent introduced by `lower` or `upper`: its value and the length read. The
letter is left unread where no decimal digit follows. -/
def exponentPart (lower upper : UInt8) : Bytes → Int × Nat
  | c :: s =>
    if c = lower ∨ c = upper then
      let sg := signPart s
      let ds := (s.drop sg.2).takeWhile (isBaseDigit 10)
      let n : Int := digitsVal 10 ds
      if ds = [] then (0, 0) else (if sg.1 then -n else n, 1 + sg.2 + ds.length)
    else (0, 0)
  | [] => (0, 0)

/-- ASCII upper case letters to lower case. -/
def tolower (c : UInt8) : UInt8 := if 0x41 ≤ c ∧ c ≤ 0x5A then c + 0x20 else c

/-- The length of a parenthesised sequence of alphanumeric bytes and underscores, as it may follow
`nan`. -/
def nanTail : Bytes → Nat
  | c :: s =>
    let cs := s.takeWhile fun c =>
      (0x61 ≤ tolower c && tolower c ≤ 0x7A) || isBaseDigit 10 c || c = 0x5F
    if c = 0x28 ∧ (s.drop cs.length).head? = some 0x29 then cs.length + 2 else 0
  | [] => 0

/-- `strtod(s, &end)` in the C locale: the value of the longest prefix of `s` in the form C11
7.22.1.3 allows, and the length `end - s` of that prefix. -/
def strtod (s : Bytes) : Double × Nat :=
  let ws := (s.takeWhile isspace).length
  let sg := signPart (s.drop ws)
  let skip := ws + sg.2
  let s := s.drop skip
  match (if hexPrefix s then mantissaPart 16 (s.drop 2) else none) with
  | some (m, f, len) =>
    let ex := exponentPart 0x70 0x50 (s.drop (2 + len))
    (.ofScaled sg.1 m 2 (ex.1 - 4 * f), skip + 2 + len + ex.2)
  | none =>
    match mantissaPart 10 s with
    | some (m, f, len) =>
      let ex := exponentPart 0x65 0x45 (s.drop len)
      (.ofScaled sg.1 m 10 (ex.1 - f), skip + len + ex.2)
    | none =>
      let l := s.map tolower
      if [0x69, 0x6E, 0x66].isPrefixOf l then
        (.ofMagnitude sg.1 (2047 * 2 ^ 52),
          skip + if [0x69, 0x6E, 0x66, 0x69, 0x6E, 0x69, 0x74, 0x79].isPrefixOf l then 8 else 3)
      else if [0x6E, 0x61, 0x6E].isPrefixOf l then
        (.ofMagnitude sg.1 (2047 * 2 ^ 52 + 2 ^ 51), skip + 3 + nanTail (s.drop 3))
      else (.ofMagnitude false 0, 0)

end Eltn
