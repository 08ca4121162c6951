import Eltn.KeySet.Failures
import Eltn.Pool.Memory

/-!
# The blocks of a key set

`ekeyset.c` with its blocks of memory: the set, its table, and one block for the bytes of each key.
A call has no result where it uses a block that is not live or frees one twice. `Held` says which
blocks there are between the calls; a key that a full table does not take leaves its block behind
(`dropped`), and nothing leads to that one any more.
-/

namespace Eltn

/-- `sizeof(Key_Set)`. -/
def sizeofKeySet : Nat := 40

/-- `sizeof(Key)`. -/
def sizeofKey : Nat := 32

/-- A slot of the table: its key, and the block that `str` points to. -/
abbrev Slot := Key × Pointer

namespace Slot

/-- The slot holds a key. -/
def used (s : Slot) : Bool := s.1.used

/-- `hashvalue` of the key. -/
def hash (s : Slot) : Nat := hashvalue s.1

/-- A slot of a zeroed table. -/
def blank : Slot := ({}, none)

end Slot

/-- `struct Key_Set` and its memory: the block of the object, that of the array, and for each slot
its key and the block of its string. `dropped`, the blocks of keys that were lost, is no field of
it. -/
structure HeapKeySet where
  memory : Memory
  self : Nat
  array : Pointer
  arraysize : Nat := tableMinsiz
  slots : List Slot := List.replicate tableMinsiz Slot.blank
  nitems : Nat := 0
  dropped : List Nat := []

/-- A call of `Key_Set_add_key`, with what is behind the blocks of its two keys; the memory says
which of its requests are granted. -/
structure AddCall where
  type : KeyType
  str : Bytes
  probeAfter : Bytes := []
  keyAfter : Bytes := []

namespace HeapKeySet

/-- The set without its blocks, which is the set of the model. -/
def toKeySet (q : HeapKeySet) : KeySet where
  nitems := q.nitems
  arraysize := q.arraysize
  array := q.slots.map (·.1)

/-- `Key_Set_new_with_pool`: the object and the array. The test behind the second allocation is that
of the first, so that a set may come without an array. -/
def newWithPool (m : Memory) : Option HeapKeySet × Memory :=
  match m.alloc sizeofKeySet with
  | (none, m) => (none, m)
  | (some self, m) =>
    let (array, m) := m.alloc (sizeofKey * tableMinsiz)
    (some { memory := m, self := self, array := array }, m)

/-- `init_key`: the key and its block, or nothing where there is none. The bytes are stored in the
block before `strtod` reads them. -/
def initKey (t : KeyType) (str after : Bytes) (m : Memory) : Option (Option Slot × Memory) :=
  match m.alloc str.length with
  | (none, m) => some (none, m)
  | (some cstr, m) => do
    let m ← m.store cstr (strncpy str str.length)
    let value ← Eltn.initKey true t str after
    some (some (value, some cstr), m)

/-- `clear_key`: the block is freed, and the key zeroed. -/
def clearKey (value : Slot) (m : Memory) : Option (Slot × Memory) :=
  (m.free value.2).map fun m => (Slot.blank, m)

/-- `Key_Set_has_key`. It reads the table, which must be there, and frees its own key; without a
block for that key nothing is found. -/
def hasKey (t : KeyType) (str after : Bytes) (q : HeapKeySet) : Option (Bool × HeapKeySet) := do
  match ← initKey t str after q.memory with
  | (none, m) => some (false, { q with memory := m })
  | (some value, m) =>
    let _ ← m.bytes q.array
    let result := Probing.find Slot.used Slot.blank (fun p => isEqual value.1 p.1)
      (hashvalue value.1 % q.arraysize) q.slots
    let (_, m) ← clearKey value m
    some (result, { q with memory := m })

/-- The static `add_key`. A key that finds no slot is dropped with its block, which nothing frees.
-/
def addKeyEntry (p : Slot) (q : HeapKeySet) : Bool × HeapKeySet :=
  match Probing.insert Slot.used Slot.hash Slot.blank p q.slots with
  | none => (false, { q with dropped := p.2.toList ++ q.dropped })
  | some slots => (true, { q with slots := slots, nitems := q.nitems + 1 })

/-- `resize`: the keys move to a new array with their blocks, and the old array is freed. Nothing
changes where the new one is refused. -/
def resize (q : HeapKeySet) : Option HeapKeySet :=
  let newlen := q.arraysize * 2 + 1
  match q.memory.alloc (newlen * sizeofKey) with
  | (none, m) => some { q with memory := m }
  | (some newarray, m) => do
    let _ ← m.bytes q.array
    let moved := (q.slots.filter Slot.used).foldl (fun q p => (addKeyEntry p q).2)
      { q with memory := m, array := some newarray, arraysize := newlen, nitems := 0,
               slots := List.replicate newlen Slot.blank }
    let m ← moved.memory.free q.array
    some { moved with memory := m }

/-- `Key_Set_add_key`: the key is looked for, the table grown where it is crowded, and a second key
made to be stored. -/
def addKey (a : AddCall) (q : HeapKeySet) : Option (Bool × HeapKeySet) := do
  if a.type = .empty then some (false, q)
  else
    let (known, q) ← q.hasKey a.type a.str a.probeAfter
    if known then some (false, q)
    else
      let q ← (if q.toKeySet.crowded then q.resize else some q : Option HeapKeySet)
      match ← initKey a.type a.str a.keyAfter q.memory with
      | (none, m) => some (false, { q with memory := m })
      | (some value, m) =>
        let _ ← m.bytes q.array
        some (addKeyEntry value { q with memory := m })

/-- `Key_Set_free`: the string of every slot, `NULL` or not, the array, and the object. -/
def free (q : HeapKeySet) : Option Memory := do
  let _ ← q.memory.bytes q.array
  let m ← q.slots.foldlM (fun m p => m.free p.2) q.memory
  let m ← m.free q.array
  m.free (some q.self)

/-- Calls one after the other, on the same memory: what they return, and the set they leave. -/
def addAll : List AddCall → HeapKeySet → Option (List Bool × HeapKeySet)
  | [], q => some ([], q)
  | a :: calls, q => do
    let (added, q) ← q.addKey a
    let (rest, q) ← addAll calls q
    some (added :: rest, q)

end HeapKeySet

end Eltn
