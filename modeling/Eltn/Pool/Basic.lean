import Eltn.Buffer.Basic
import Eltn.KeySet.Basic
import Eltn.Lexer.Basic

/-!
# The memory pool

`ELTN_Pool` of `ealloc.c`, with the constructors and destructors of the objects that hold a
reference to it. An allocator is the pattern of its answers. A function that follows a `NULL`
pointer has no result. Freeing a block changes nothing that is kept of a pool, so the calls on
blocks that are known not to be `NULL` are left out.
-/

namespace Eltn

/-- `struct ELTN_Pool` (`ealloc.c:33`). `grants n` says whether the allocator grants the `n`-th
request for memory, of which there were `requests` so far; a pool that was `freed` is gone. -/
structure Pool where
  refcnt : UInt32 := 1
  grants : Nat → Bool
  requests : Nat := 0
  freed : Bool := false

/-- A pointer to a block: `NULL` or the size of the block. -/
abbrev Ptr := Option Nat

namespace Pool

/-- `ELTN_Pool_new_with_alloc` (`ealloc.c:41`). -/
def newWithAlloc (grants : Nat → Bool) : Option Pool :=
  if grants 0 then some { grants := grants, requests := 1 } else none

/-- `ELTN_Pool_acquire` (`ealloc.c:65`): one reference more, on a counter of 32 bits. -/
def acquire (h : Pool) : Pool := { h with refcnt := h.refcnt + 1 }

/-- `ELTN_Pool_release` (`ealloc.c:71`): one reference less, and the pool is freed when there is
none left. -/
def release (h : Pool) : Pool :=
  { h with refcnt := h.refcnt - 1, freed := h.freed || h.refcnt - 1 = 0 }

/-- `ELTN_alloc` (`ealloc.c:93`): whether it gives a block. -/
def alloc (h : Pool) : Bool × Pool :=
  (h.grants h.requests, { h with requests := h.requests + 1 })

/-- `ELTN_free` (`ealloc.c:114`). The allocator takes a call on `NULL` for a request, of no bytes;
what it gives is dropped. -/
def free (ptr : Ptr) (h : Pool) : Pool := if ptr = none then h.alloc.2 else h

/-- `ELTN_free` (`ealloc.c:114`) on the strings of some keys; that of an empty key is `NULL`. -/
def freeKeys (keys : List Key) (h : Pool) : Pool :=
  keys.foldl (fun h p => h.free (if p.used then some p.len else none)) h

end Pool

/-! ## Buffers, lexers and emitters -/

/-- `struct ELTN_Buffer` (`ebuffer.c:39`), as it is constructed. -/
structure BufferObject where
  bufsize : Nat := initBufSize
  buffer : Ptr := none

/-- `ELTN_Buffer_free` (`ebuffer.c:52`), which follows its argument unchecked: the block goes back
if there is one, and the reference to the pool with it. -/
def BufferObject.free (self : Option BufferObject) (h : Pool) : Option Pool :=
  self.map fun self => (if self.buffer ≠ none then h.free self.buffer else h).release

/-- `ELTN_Buffer_new_with_pool` (`ebuffer.c:62`): the object, a reference to the pool and the block.
Without the block the object is freed again. -/
def BufferObject.newWithPool (h : Pool) : Option (Option BufferObject × Pool) :=
  let result := h.alloc
  if !result.1 then some (none, result.2)
  else
    let buffer := result.2.acquire.alloc
    if !buffer.1 then (free (some {}) buffer.2).map fun h => (none, h)
    else some (some { buffer := some initBufSize }, buffer.2)

/-- `struct ELTN_Lexer` (`elexer.c:47`), as it is constructed: the size of the token buffer, its
block and the source, which the parser sets. -/
structure LexerObject where
  tokenBufferSize : Nat := tokenBufSize
  tokenBuffer : Ptr := none
  source : Option BufferObject := none

/-- `ELTN_Lexer_free` (`elexer.c:82`), which follows its argument unchecked: the token buffer goes
back, `NULL` or not, and the reference to the pool. -/
def LexerObject.free (self : Option LexerObject) (h : Pool) : Option Pool :=
  self.map fun self => (h.free self.tokenBuffer).release

/-- `ELTN_Lexer_new_with_pool` (`elexer.c:64`): the object, a reference to the pool and the token
buffer. Without that the object is freed again. -/
def LexerObject.newWithPool (h : Pool) : Option (Option LexerObject × Pool) :=
  let self := h.alloc
  if !self.1 then some (none, self.2)
  else
    let tokenBuffer := self.2.acquire.alloc
    if !tokenBuffer.1 then (free (some {}) tokenBuffer.2).map fun h => (none, h)
    else some (some { tokenBuffer := some tokenBufSize }, tokenBuffer.2)

/-- `struct ELTN_Emitter` (`eemitter.c:40`). -/
structure EmitterObject where
  prettyPrint : Bool := true
  indent : Nat := 4

/-- `ELTN_Emitter_free` (`eemitter.c:50`). -/
def EmitterObject.free (self : Option EmitterObject) (h : Pool) : Option Pool :=
  self.map fun _ => h.release

/-- `ELTN_Emitter_new_with_pool` (`eemitter.c:61`): the object and a reference to the pool. -/
def EmitterObject.newWithPool (h : Pool) : Option EmitterObject × Pool :=
  let result := h.alloc
  if !result.1 then (none, result.2) else (some {}, result.2.acquire)

/-! ## Parsers -/

/-- `struct ELTN_Parser` (`eparser.c:54`), as it is constructed: without a string, which the first
event brings. -/
structure ParserObject where
  buffer : Option BufferObject := none
  lexer : Option LexerObject := none
  string : Ptr := none

/-- `ELTN_Parser_free` (`eparser.c:117`): nothing for `NULL`, else its buffer, its lexer, its string
and its reference to the pool. The buffer's destructor is called on `NULL` too. -/
def ParserObject.free (self : Option ParserObject) (h : Pool) : Option Pool :=
  match self with
  | none => some h
  | some self =>
    (BufferObject.free self.buffer h).bind fun h =>
      (LexerObject.free self.lexer h).map fun h => (h.free self.string).release

/-- `ELTN_Parser_new_with_pool` (`eparser.c:93`): the object, a reference to the pool, a buffer and
a lexer that reads from it. What was made is freed again where the rest cannot be. -/
def ParserObject.newWithPool (h : Pool) : Option (Option ParserObject × Pool) :=
  let self := h.alloc
  if !self.1 then some (none, self.2)
  else
    (BufferObject.newWithPool self.2.acquire).bind fun (buffer, h) =>
      if buffer.isNone then (free (some {}) h).map fun h => (none, h)
      else
        (LexerObject.newWithPool h).bind fun (lexer, h) =>
          match lexer with
          | none => (free (some { buffer := buffer }) h).map fun h => (none, h)
          | some lexer =>
            some (some { buffer := buffer, lexer := some { lexer with source := buffer } }, h)

/-! ## Key sets and their iterators -/

/-- `struct Key_Set` (`ekeyset.c:44`): the pointer to the array, and what the set has in it. -/
structure KeySetObject where
  array : Ptr := none
  set : KeySet := .new

/-- `Key_Set_free` (`ekeyset.c:80`). Its loop reads the array. -/
def KeySetObject.free (self : Option KeySetObject) (h : Pool) : Option Pool :=
  self.bind fun self => self.array.map fun _ => (h.freeKeys self.set.array).release

/-- `Key_Set_new_with_pool` (`ekeyset.c:62`): the object, a reference to the pool and the array. The
test behind the second allocation is that of the first, so that a set without an array is returned.
-/
def KeySetObject.newWithPool (h : Pool) : Option KeySetObject × Pool :=
  let self := h.alloc
  if !self.1 then (none, self.2)
  else
    let array := self.2.acquire.alloc
    (some { array := if array.1 then some tableMinsiz else none }, array.2)

/-- `Key_Set_add_key` (`ekeyset.c:254`), which asks for up to three blocks: that of the key it looks
for, a greater array and that of the key it stores. A set without an array has no result once the
table is read. -/
def KeySetObject.addKey (t : KeyType) (str probeAfter keyAfter : Bytes) (self : KeySetObject)
    (h : Pool) : Option (KeySetObject × Pool) :=
  if t = .empty then some (self, h)
  else
    let probe := h.alloc
    if probe.1 && self.array.isNone then none
    else if self.set.hasKey probe.1 t str probeAfter then some (self, probe.2)
    else
      let table := if self.set.crowded then probe.2.alloc else (true, probe.2)
      let key := table.2.alloc
      if key.1 && self.array.isNone then none
      else
        let heap : KeySet.Heap :=
          { probe := probe.1, table := table.1, key := key.1,
            probeAfter := probeAfter, keyAfter := keyAfter }
        some ({ self with set := (self.set.addKey heap t str).2 }, key.2)

/-- `struct Key_Set_Iterator` (`ekeyset.c:53`): the index of the key it is at, before the first when
it is new, and copies of the keys. -/
structure KeySetIterator where
  index : Int := -1
  length : Nat := 0
  keys : Option (List Key) := none

/-- `Key_Set_Iterator_free` (`ekeyset.c:306`): the strings of the copies, `NULL` for a copy that was
not made, then the reference to the pool. Without an array there must be no copies either. -/
def KeySetIterator.free (self : Option KeySetIterator) (h : Pool) : Option Pool :=
  self.bind fun self =>
    match self.keys with
    | none => if self.length = 0 then some (h.free none).release else none
    | some keys => some (h.freeKeys keys).release

/-- The loop of `Key_Set_iterator` (`ekeyset.c:272`) over the slots: whether it comes to its end,
and the copies. It ends early where a copy finds no memory. -/
def copyKeys (after : Nat → Bytes) (length : Nat) :
    List Key → List Key → Pool → Bool × List Key × Pool
  | [], copied, h => (true, copied, h)
  | p :: slots, copied, h =>
    if copied.length < length then
      if p.used then
        let cstr := h.alloc
        match initKey cstr.1 p.type p.str (after copied.length) with
        | none => (false, copied, cstr.2)
        | some value => copyKeys after length slots (copied ++ [value]) cstr.2
      else copyKeys after length slots copied h
    else (true, copied, h)

/-- `Key_Set_iterator` (`ekeyset.c:272`); `after j` are the bytes behind the block of the `j`-th
copy. Without memory for the array of copies it gives `NULL` and keeps its reference to the pool. -/
def KeySetObject.iterator (after : Nat → Bytes) (self : KeySetObject) (h : Pool) :
    Option (Option KeySetIterator × Pool) :=
  let iter := h.alloc
  if !iter.1 then some (none, iter.2)
  else
    let keys := iter.2.acquire.alloc
    -- the reference stays taken
    if !keys.1 then some (none, keys.2)
    else
      let length := self.set.nitems
      let (done, copied, h) := copyKeys after length self.set.array [] keys.2
      let iter : KeySetIterator :=
        { length := length, keys := some (copied ++ List.replicate (length - copied.length) {}) }
      if done then some (some iter, h)
      else (KeySetIterator.free (some iter) h).map fun h => (none, h)

/-! ## Histories -/

/-- An object on a pool, as its constructor returned it. -/
inductive Object where
  | parser (self : ParserObject)
  | buffer (self : BufferObject)
  | lexer (self : LexerObject)
  | emitter (self : EmitterObject)
  | keySet (self : KeySetObject)
  | iterator (self : KeySetIterator)

/-- The destructor of an object, by its kind. -/
def Object.free : Object → Pool → Option Pool
  | .parser self, h => ParserObject.free (some self) h
  | .buffer self, h => BufferObject.free (some self) h
  | .lexer self, h => LexerObject.free (some self) h
  | .emitter self, h => EmitterObject.free (some self) h
  | .keySet self, h => KeySetObject.free (some self) h
  | .iterator self, h => KeySetIterator.free (some self) h

/-- A pool and the objects that live on it, other than the parts of a parser. -/
structure PoolState where
  pool : Pool
  objects : List Object := []

/-- The calls of a history; an object is named by its place in the list. Adding a key is among them
because an iterator copies the keys. -/
inductive Call where
  | parserNew
  | bufferNew
  | lexerNew
  | emitterNew
  | keySetNew
  | iterator (i : Nat) (after : Nat → Bytes)
  | addKey (i : Nat) (t : KeyType) (str probeAfter keyAfter : Bytes)
  | free (i : Nat)

/-- What a call returns: an object, `NULL`, or nothing of interest. -/
inductive Returned where
  | object (o : Object)
  | null
  | done

namespace PoolState

/-- The state behind a constructor: the pool as it was left, and the new object, if there is one,
behind the others. -/
def constructed {α : Type} (mk : α → Object) (s : PoolState) (result : Option α × Pool) :
    Returned × PoolState :=
  match result.1 with
  | none => (.null, { s with pool := result.2 })
  | some self => (.object (mk self), { pool := result.2, objects := s.objects ++ [mk self] })

/-- A call on a pool. Nothing is defined once the pool is gone, and a call on an object that does
not exist is none. -/
def call (c : Call) (s : PoolState) : Option (Returned × PoolState) :=
  if s.pool.freed then none
  else match c with
  | .parserNew => (ParserObject.newWithPool s.pool).map (s.constructed .parser)
  | .bufferNew => (BufferObject.newWithPool s.pool).map (s.constructed .buffer)
  | .lexerNew => (LexerObject.newWithPool s.pool).map (s.constructed .lexer)
  | .emitterNew => some (s.constructed .emitter (EmitterObject.newWithPool s.pool))
  | .keySetNew => some (s.constructed .keySet (KeySetObject.newWithPool s.pool))
  | .iterator i after =>
    match s.objects[i]? with
    | some (.keySet self) => (self.iterator after s.pool).map (s.constructed .iterator)
    | _ => some (.done, s)
  | .addKey i t str probeAfter keyAfter =>
    match s.objects[i]? with
    | some (.keySet self) =>
      (self.addKey t str probeAfter keyAfter s.pool).map fun (self, pool) =>
        (.done, { pool := pool, objects := s.objects.set i (.keySet self) })
    | _ => some (.done, s)
  | .free i =>
    match s.objects[i]? with
    | some o => (o.free s.pool).map fun pool =>
        (.done, { pool := pool, objects := s.objects.eraseIdx i })
    | none => some (.done, s)

end PoolState

end Eltn
