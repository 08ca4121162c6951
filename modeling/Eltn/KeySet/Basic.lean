import Eltn.CLib
import Eltn.Lib.Probing

/-!
# Sets of keys

`Key_Set` of `ekeyset.c`, a hash table with linear probing. The bytes of a key are a block of their
own, which ends without a terminator: `strtod` may read on into the bytes behind it, and these are
arguments of the model (`after`). So are the outcomes of the allocations. `char` is signed and a
`double` is stored with its least significant byte first.
-/

namespace Eltn

/-- `Key_Type` (`ekeyset.h:35`). A slot of the table is empty or holds a string or a number. -/
inductive KeyType where
  | empty
  | string
  | number
deriving DecidableEq, Repr

/-- `struct Key` (`ekeyset.c:37`): its type, the length of its string, the string, and the value of
a number, which is zero for a string. -/
structure Key where
  type : KeyType := .empty
  len : Nat := 0
  str : Bytes := []
  num : Double := ⟨0⟩
deriving DecidableEq, Repr

/-- `TABLE_MINSIZ`. -/
def tableMinsiz : Nat := 5

/-- `struct Key_Set` (`ekeyset.c:44`). The array is zeroed when it is allocated, so its keys start
out empty; `arraysize` is recorded next to it, and `nitems` counts the keys. -/
structure KeySet where
  nitems : Nat := 0
  arraysize : Nat := tableMinsiz
  array : List Key := List.replicate tableMinsiz {}
deriving DecidableEq, Repr

/-- `init_key` (`ekeyset.c:91`), for the `len` bytes `str`; `after` are the bytes behind the new
block. The string is copied up to its first zero byte, and `strtod` reads the copy of a number, with
nothing to stop it at the end of the block. -/
def initKey (alloc : Bool) (t : KeyType) (str after : Bytes) : Option Key :=
  if !alloc then none
  else
    let cstr := strncpy str str.length
    some { type := t, len := str.length, str := cstr,
           num := if t = .number then (strtod (cstr ++ after)).1 else ⟨0⟩ }

/-- `is_equal` (`ekeyset.c:117`): numbers by their values as doubles, strings by their lengths and
by `strncmp`, which stops at a zero byte. An empty key equals none. -/
def isEqual (a b : Key) : Bool :=
  if a.type ≠ b.type then false
  else match a.type with
    | .number => a.num.eq b.num
    | .string => a.len = b.len && strncmpEq a.str b.str a.len
    | .empty => false

/-- The value of a byte as a `char`. -/
def toChar (c : UInt8) : Int := Int.bmod c.toNat 256

/-- `p` of `hash_string`. -/
def hashP : Int := 31

/-- `m` of `hash_string`. -/
def hashM : Int := 1000000009

/-- The loop of `hash_string` (`ekeyset.c:132`), from a byte on: `hash_value` and `p_pow` are
carried. C's remainder has the sign of the dividend. The counter `i`, an `int`, is left out: it does
not overflow for keys of less than 2³¹ bytes, and only such keys have this hash (`Guarded.hashLoop`
has the counter, and agrees with this loop on them). -/
def hashLoop : Bytes → Int → Int → Int
  | [], hash, _ => hash
  | c :: str, hash, pow =>
    hashLoop str (Int.tmod (hash + (toChar c - 0x61 + 1) * pow) hashM)
      (Int.tmod (pow * hashP) hashM)

/-- `hash_string` (`ekeyset.c:132`), for keys of less than 2³¹ bytes (`hashLoop`). The mask keeps
the low 31 bits of the two's complement word. -/
def hashString (str : Bytes) (len : Nat) : Nat :=
  if len = 0 then 0 else (hashLoop (str.take len) 0 1 % 2 ^ 31).toNat

/-- `hash_double` (`ekeyset.c:153`): the hash of the eight bytes of the object. -/
def hashDouble (val : Double) : Nat := hashString val.bytes 8

/-- `hashvalue` (`ekeyset.c:157`): a number by the bytes of its double, every other key by its
string. -/
def hashvalue (value : Key) : Nat :=
  match value.type with
  | .number => hashDouble value.num
  | _ => hashString value.str value.len

/-- Whether a slot holds a key. -/
def Key.used (p : Key) : Bool := p.type ≠ .empty

namespace KeySet

/-- `Key_Set_new_with_pool` (`ekeyset.c:62`), when its allocations succeed. -/
def new : KeySet := {}

/-- `Key_Set_size` (`ekeyset.c:166`). -/
def size (self : KeySet) : Nat := self.nitems

/-- `Key_Set_capacity` (`ekeyset.c:170`). -/
def capacity (self : KeySet) : Nat := self.arraysize

/-- `Key_Set_has_key` (`ekeyset.c:174`). Its loop ends where it comes back to the slot it started
from, which is known by then to hold no equal key. -/
def hasKey (alloc : Bool) (t : KeyType) (str after : Bytes) (self : KeySet) : Bool :=
  match initKey alloc t str after with
  | none => false
  | some value =>
    Probing.find Key.used {} (isEqual value) (hashvalue value % self.arraysize) self.array

/-- The static `add_key` (`ekeyset.c:209`): the first empty slot from the key's own on takes it, and
a table without one is left as it is. -/
def addKeyEntry (p : Key) (self : KeySet) : Bool × KeySet :=
  match Probing.insert Key.used hashvalue {} p self.array with
  | none => (false, self)
  | some array => (true, { self with array := array, nitems := self.nitems + 1 })

/-- `resize` (`ekeyset.c:226`): the keys move to a zeroed array of twice the size and one, in the
order of the old one. Nothing changes where that array is not allocated. -/
def resize (alloc : Bool) (self : KeySet) : KeySet :=
  let newlen := self.arraysize * 2 + 1
  if !alloc then self
  else
    (self.array.filter Key.used).foldl (fun s p => (addKeyEntry p s).2)
      { nitems := 0, arraysize := newlen, array := List.replicate newlen {} }

/-- What the heap does in a call of `Key_Set_add_key`: the outcomes of its three allocations, and
the bytes behind the blocks of its two keys. -/
structure Heap where
  probe : Bool := true
  table : Bool := true
  key : Bool := true
  probeAfter : Bytes := []
  keyAfter : Bytes := []
deriving DecidableEq, Repr

/-- `(nitems + 1) >= TABLE_LOAD * arraysize`, with `TABLE_LOAD` 0.65. An array size is odd, so the
product is a 20th or more away from a whole number and its rounding does not matter. -/
def crowded (self : KeySet) : Bool := 13 * self.arraysize ≤ 20 * (self.nitems + 1)

/-- `Key_Set_add_key` (`ekeyset.c:254`): `false` for the empty type, for a key that is there already
and where its block is not allocated. A crowded table grows first, or stays as it is without memory
for it. -/
def addKey (heap : Heap) (t : KeyType) (str : Bytes) (self : KeySet) : Bool × KeySet :=
  if t = .empty || self.hasKey heap.probe t str heap.probeAfter then (false, self)
  else
    let self := if self.crowded then self.resize heap.table else self
    match initKey heap.key t str heap.keyAfter with
    | none => (false, self)
    | some value => self.addKeyEntry value

/-- A call of `Key_Set_add_key`: its arguments and what the heap does in it. -/
structure Add where
  type : KeyType
  str : Bytes
  heap : Heap := {}
deriving DecidableEq, Repr

/-- Calls one after the other: what they return, and the set they leave. The heap is another one in
each call. -/
def addAll : List Add → KeySet → List Bool × KeySet
  | [], self => ([], self)
  | a :: adds, self =>
    let first := self.addKey a.heap a.type a.str
    let rest := addAll adds first.2
    (first.1 :: rest.1, rest.2)

end KeySet

end Eltn
