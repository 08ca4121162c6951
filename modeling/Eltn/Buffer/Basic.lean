import Eltn.CLib
import Eltn.Lib.Ring

/-!
# The buffer

`ELTN_Buffer` of `ebuffer.c`. The block is the list of its cells, of the size that was allocated;
`bufsize` is the `int` the source records for it, and the pointers are offsets. Sizes are 64-bit
words. An operation that allocates takes the outcome of that allocation; the writes of the refill
loop find memory. `-1` from `ELTN_Buffer_next_char` is `none`.
-/

namespace Eltn

/-- What one call of an `ELTN_Reader` gives: its text, `NULL` as `none`, and its error code, which
is zero where there was no error. -/
structure ReaderResult where
  text : Option Bytes
  errcode : Int := 0
deriving DecidableEq, Repr

/-- `INIT_BUF_SIZE` of `ebuffer.c`. -/
def initBufSize : Nat := 1024

/-- `struct ELTN_Buffer` (`ebuffer.c:39`). A reader is the list of what its calls give; after them
it gives `NULL`. -/
structure Buffer where
  reader : Option (List ReaderResult) := none
  buffer : Bytes := List.replicate initBufSize 0
  bufsize : Int := initBufSize
  head : Nat := 0
  tail : Nat := 0
  eof : Bool := false
deriving DecidableEq, Repr

/-- The conversion of a `size_t` to `int`. -/
def toInt (n : Nat) : Int := Int.bmod n (2 ^ 32)

/-- The conversion of a signed value to `size_t`. -/
def toSize (i : Int) : Nat := (i % 2 ^ 64).toNat

namespace Buffer

/-- `ELTN_Buffer_new_with_pool` (`ebuffer.c:62`), when its allocations succeed. -/
def new : Buffer := {}

/-- `ELTN_Buffer_length` (`ebuffer.c:86`). -/
def length (self : Buffer) : Nat :=
  if self.head ≤ self.tail then self.tail - self.head
  else toSize (self.bufsize - (self.head - self.tail : Nat))

/-- `ELTN_Buffer_capacity` (`ebuffer.c:94`). -/
def capacity (self : Buffer) : Nat := toSize self.bufsize

/-- `ELTN_Buffer_set_capacity` (`ebuffer.c:98`): nothing changes unless the new capacity is greater
than the length and the block is allocated, as `alloc` says. An empty buffer reallocates its block;
otherwise the stored bytes move to the front of a new one, the part behind `head` before the part
that wrapped. -/
def setCapacity (alloc : Bool) (newcap : Nat) (self : Buffer) : Bool × Buffer :=
  let length := self.length
  if newcap ≤ length then (false, self)
  else if !alloc then (false, self)
  else if length = 0 then
    (true, { self with
      buffer := self.buffer.take newcap ++ List.replicate (newcap - self.buffer.length) 0
      head := 0, tail := 0, bufsize := toInt newcap })
  else
    let newbuf := List.replicate newcap 0
    let newbuf :=
      if self.head < self.tail then newbuf.overwrite 0 ((self.buffer.drop self.head).take length)
      else
        let headlen := length - self.tail
        (newbuf.overwrite 0 ((self.buffer.drop self.head).take headlen)).overwrite headlen
          (self.buffer.take self.tail)
    (true, { self with buffer := newbuf, head := 0, tail := length, bufsize := toInt newcap })

/-- `ELTN_Buffer_is_empty` (`ebuffer.c:140`). -/
def isEmpty (self : Buffer) : Bool := self.head = self.tail

/-- `ELTN_Buffer_is_closed` (`ebuffer.c:144`). -/
def isClosed (self : Buffer) : Bool := self.eof

/-- The part of `ELTN_Buffer_write` (`ebuffer.c:193`) after the capacity is ensured: the text goes
behind `tail`, and what does not fit before the recorded size goes to the front of the block. -/
def store (text : Bytes) (self : Buffer) : Int × Buffer :=
  if (self.tail + text.length : Int) < self.bufsize then
    (text.length, { self with
      buffer := self.buffer.overwrite self.tail text, tail := self.tail + text.length })
  else
    let headlen := toSize (self.bufsize - self.tail)
    (text.length, { self with
      buffer :=
        (self.buffer.overwrite self.tail (text.take headlen)).overwrite 0 (text.drop headlen)
      tail := text.length - headlen })

/-- `ELTN_Buffer_write` (`ebuffer.c:193`): `-1` on a closed buffer and where the block cannot grow.
It grows to twice what is needed as soon as that reaches the capacity, so that one cell stays free.
-/
def write (alloc : Bool) (text : Bytes) (self : Buffer) : Int × Buffer :=
  let need := (self.length + text.length) % 2 ^ 64
  if self.eof then (-1, self)
  else if need ≥ self.capacity then
    let grown := self.setCapacity alloc (need * 2 % 2 ^ 64)
    if !grown.1 then (-1, self) else grown.2.store text
  else self.store text

/-- `ELTN_Buffer_close` (`ebuffer.c:221`). -/
def close (self : Buffer) : Buffer := { self with eof := true }

/-- The next call of the reader: the first of the results that it has left, or `NULL` with no error
behind the last of them. -/
def callReader (self : Buffer) : ReaderResult × Buffer :=
  match self.reader with
  | some (result :: rest) => (result, { self with reader := some rest })
  | _ => ({ text := none }, self)

/-- `read_into_buffer` (`ebuffer.c:148`): `NULL`, an error code or a write that fails close the
buffer, and the text of a call with an error code is stored all the same. -/
def readIntoBuffer (self : Buffer) : Int × Buffer :=
  let call := self.callReader
  match call.1.text with
  | none => (-1, call.2.close)
  | some text =>
    let write := call.2.write true text
    if call.1.errcode ≠ 0 then (-1, write.2.close)
    else if write.1 < 0 then (write.1, write.2.close)
    else (text.length, write.2)

/-- `ELTN_Buffer_read` (`ebuffer.c:181`) with a reader that is not `NULL`. -/
def read (reader : List ReaderResult) (self : Buffer) : Int × Buffer :=
  { self with reader := some reader }.readIntoBuffer

/-- `next_byte` (`ebuffer.c:225`): the byte at `head`, or nothing in an empty buffer. `head` moves
on, or back to the front at the recorded size, if the byte is consumed. -/
def nextByte (consume : Bool) (self : Buffer) : Option UInt8 × Buffer :=
  if self.head = self.tail then (none, self)
  else
    (some (self.buffer.getD self.head 0),
      if consume then
        { self with
          head := if ((self.head + 1 : Nat) : Int) ≥ self.bufsize then 0 else self.head + 1 }
      else self)

/-- The loop of `ensure_more_bytes` (`ebuffer.c:240`). Each turn takes a result from the reader, and
the one after the last ends it. -/
def refill : Nat → Buffer → Bool × Buffer
  | 0, self => (false, self)
  | fuel + 1, self =>
    if self.length = 0 then
      let read := self.readIntoBuffer
      if read.1 < 0 then (false, read.2) else refill fuel read.2
    else (true, self)

/-- `ensure_more_bytes` (`ebuffer.c:240`): whether the buffer has bytes, after reading until it
does. A closed buffer and one without a reader do not try. -/
def ensureMoreBytes (self : Buffer) : Bool × Buffer :=
  if self.eof then (false, self)
  else match self.reader with
  | none => (false, self)
  | some results => refill (results.length + 2) self

/-- `ELTN_Buffer_next_char` (`ebuffer.c:257`): the next byte, which a call without `consume` leaves
where it is. An empty buffer is filled first. -/
def nextChar (consume : Bool) (self : Buffer) : Option UInt8 × Buffer :=
  if self.head = self.tail then
    let more := self.ensureMoreBytes
    if !more.1 then (none, more.2) else more.2.nextByte consume
  else self.nextByte consume

end Buffer

end Eltn
