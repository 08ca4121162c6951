import Eltn.Parser.Block
import Eltn.Parser.Program
import Eltn.Pool.Memory

/-!
# The memory of the parser

The functions of `eparser.c` with `self->text` and `self->string` as pointers to blocks. The text
comes from `malloc` and the string mostly from the pool, which may refuse a request. A function has
no result where it leaves a block, uses one that was freed or frees one twice. `Holds` is the
invariant: each of the two pointers is the only one to its block, and the block has the size that
is recorded.
-/

namespace Eltn

namespace Memory

/-- The bytes that are copied from a pointer. -/
def load (ptr : Pointer) (len : Nat) (m : Memory) : Option Bytes := do
  let block ← m.bytes ptr
  if len ≤ block.length then some (block.take len) else none

/-- The string of a length behind a pointer, with its terminator at the end of the block. -/
def string (ptr : Pointer) (len : Nat) (m : Memory) : Option Bytes := do
  let block ← m.bytes ptr
  if block = block.take len ++ [0] then some (block.take len) else none

/-- `ELTN_unescape_quoted_string`: a block of the pool's allocator, of the size of the literal, into
which the unescaper stores. There is no result where it reads or stores outside of a block. -/
def unescapeQuotedString (instr : Pointer) (inlen : Nat) (m : Memory) :
    Option (Pointer × Nat × Memory) := do
  let (bufptr, m) := m.alloc inlen
  match bufptr with
  | none => some (none, 0, m)
  | some a => do
    let instr ← m.string instr inlen
    let out ← Guarded.unescapeQuotedString instr
    let m ← m.store a out.bufptr
    some (some a, out.buflen, m)

/-- `ELTN_unquote_long_string`, which leaves the pool alone: the copy is a block of the library. -/
def unquoteLongString (instr : Pointer) (inlen : Nat) (m : Memory) :
    Option (Pointer × Nat × Memory) := do
  let src ← m.load instr inlen
  let (dest, m) ← m.newString (Eltn.unquoteLongString src)
  some (some dest, inlen, m)

/-- `ELTN_trim_comment`, which leaves the pool alone: the copy is a block of the library. -/
def trimComment (instr : Pointer) (inlen : Nat) (m : Memory) :
    Option (Pointer × Nat × Memory) := do
  let src ← m.load instr inlen
  let (dest, m) ← m.newString (Eltn.trimComment src)
  some (some dest, inlen, m)

end Memory

/-- `struct ELTN_Parser`, with the memory behind its pointers. It is `exhausted` when
`signal_out_of_memory` was called; `unquoted` strings came from `ELTN_unquote_long_string` or
`ELTN_trim_comment`. -/
structure HeapParser (τ : Type) where
  lastEvent : Event := .streamStart
  event : Event := .streamStart
  text : Pointer := none
  textLen : Nat := 0
  string : Pointer := none
  stringLen : Nat := 0
  stringMax : Nat := 0
  depth : Nat := 0
  noDefs : Bool := false
  errcode : Error := .ok
  errline : Nat := 0
  errcolumn : Nat := 0
  lexer : τ
  memory : Memory
  exhausted : Bool := false
  unquoted : Nat := 0

namespace HeapParser

section
variable {τ : Type} (ts : TokenSource τ)

/-- The parser of the model that reads the same in its own way: text and string are what their
blocks hold. -/
def toParser (self : HeapParser τ) : Parser τ where
  lastEvent := self.lastEvent
  event := self.event
  text := (self.memory.bytes self.text).map (List.take self.textLen)
  string := self.memory.bytes self.string
  stringLen := self.stringLen
  stringMax := self.stringMax
  depth := self.depth
  noDefs := self.noDefs
  errcode := self.errcode
  errline := self.errline
  errcolumn := self.errcolumn
  lexer := self.lexer

/-- `signal_out_of_memory`. -/
def signalOutOfMemory (self : HeapParser τ) : HeapParser τ :=
  { self with event := .error, errcode := .outOfMemory, exhausted := true }

/-- `set_string_ref`: the old string is freed, and the new block taken over. Nothing changes where
that is `NULL`. -/
def setStringRef (str : Pointer) (len : Nat) (self : HeapParser τ) : Option (HeapParser τ) :=
  if str = none then some self
  else do
    let memory ← self.memory.free self.string
    some { self with memory := memory, string := str, stringLen := len, stringMax := len }

/-- The reallocation of `set_string_copy`, where there is no block or none longer than the string. A
refused one leaves `NULL` in the place of the string. -/
def growString (len : Nat) (self : HeapParser τ) : Option (HeapParser τ) :=
  if self.string = none ∨ self.stringMax ≤ len then do
    let (string, memory) ← self.memory.realloc self.string (len + 1)
    if string = none then some { self with memory := memory, string := none }
    else some { self with
      memory := memory, string := string, stringLen := len, stringMax := len + 1 }
  else some self

/-- `set_string_copy`, and whether it found memory. The string is `NULL` behind a reallocation that
failed, which is signalled. -/
def setStringCopy (str : Pointer) (len : Nat) (self : HeapParser τ) :
    Option (Bool × HeapParser τ) := do
  let self ← self.growString len
  match self.string with
  | none => some (false, self.signalOutOfMemory)
  | some a => do
    let block ← self.memory.bytes (some a)
    let block ← Blocks.storeAll (List.replicate self.stringMax 0) 0 block
    if str = none then
      let memory ← self.memory.store a block
      some (true, { self with memory := memory, stringLen := 0 })
    else
      let src ← self.memory.load str len
      let block ← Blocks.storeAll src 0 block
      let memory ← self.memory.store a block
      some (true, { self with memory := memory, stringLen := len })

/-- `capture_token_buffer`: the text of the token is copied to a block of the library, and the old
text freed. -/
def captureTokenBuffer (self : HeapParser τ) : Option (HeapParser τ) := do
  let token := ts.tokenString self.lexer
  let (tokstr, memory) ← self.memory.newString token
  let memory ← memory.freeString self.text
  some { self with memory := memory, text := some tokstr, textLen := token.length }

/-- The end of a case of `set_event`: what the unescaper gives becomes the string. -/
def setUnescaped (result : Pointer × Nat × Memory) (self : HeapParser τ) : Option (HeapParser τ) :=
  let self := { self with memory := result.2.2 }
  if result.1 = none then some self.signalOutOfMemory else self.setStringRef result.1 result.2.1

/-- One more string that was copied by the library. -/
def countUnquoted (self : HeapParser τ) : HeapParser τ :=
  { self with unquoted := self.unquoted + 1 }

/-- `set_event`: the text is captured first, and the string made from it, by the unescaper or as a
copy. A request that is refused is signalled as an error. -/
def setEvent (token : Token) (event : Event) (self : HeapParser τ) : Option (HeapParser τ) := do
  let self ← captureTokenBuffer ts { self with event := event }
  match token with
  | .string => do
    let result ← self.memory.unescapeQuotedString self.text self.textLen
    self.setUnescaped result
  | .longString => do
    let result ← self.memory.unquoteLongString self.text self.textLen
    self.countUnquoted.setUnescaped result
  | .comment => do
    let result ← self.memory.trimComment self.text self.textLen
    self.countUnquoted.setUnescaped result
  | .longComment => do
    let result ← self.memory.trimComment self.text self.textLen
    self.countUnquoted.setUnescaped result
  | _ => do
    let result ← self.setStringCopy self.text self.textLen
    some (if !result.1 then result.2.signalOutOfMemory else result.2)

/-- `signal_error`, whose code overwrites the one that a refused request has set. -/
def signalError (token : Token) (line column : Nat) (self : HeapParser τ) :
    Option (HeapParser τ) := do
  let self ← captureTokenBuffer ts { self with event := .error }
  let result ← self.setStringCopy self.text self.textLen
  some { result.2 with
    errline := line, errcolumn := column, errcode := ParserState.errorCode token }

/-- The operations of the parser, without a result where a block is used that is not live. -/
def handler : Program.Handler Operation.Reply (HeapParser τ)
  | .lexerNextToken, self =>
    let read := ts.nextToken self.lexer
    some (read.1, { self with lexer := read.2 })
  | .setEvent token event, self => (self.setEvent ts token event).map ((), ·)
  | .signalError token line column, self => (self.signalError ts token line column).map ((), ·)
  | .event, self => some (self.event, self)
  | .lastEvent, self => some (self.lastEvent, self)
  | .setLastEvent event, self => some ((), { self with lastEvent := event })
  | .depth, self => some (self.depth, self)
  | .deeper, self => some ((), { self with depth := ParserState.deeper self.depth })
  | .shallower, self => some ((), { self with depth := ParserState.shallower self.depth })
  | .noDefs, self => some (self.noDefs, self)
  | .setNoDefs, self => some ((), { self with noDefs := true })

/-- `ELTN_Parser_next`. -/
def next (self : HeapParser τ) : Option (HeapParser τ) :=
  ((Code.next (ts.limit self.lexer + 1)).run (handler ts) self).map Prod.snd

/-- A number of calls of `ELTN_Parser_next` on a new parser. -/
def after (lexer : τ) (memory : Memory) : Nat → Option (HeapParser τ)
  | 0 => some { lexer := lexer, memory := memory }
  | n + 1 => (after lexer memory n).bind (next ts)

end

/-- `ELTN_Parser_free`, as far as the string. -/
def free {τ : Type} (self : HeapParser τ) : Option Memory := self.memory.free self.string

end HeapParser

namespace HeapParser

/-! ## The invariant -/

/-- The live blocks are the text, the string and `new`, which is to be the string; they have the
sizes that are recorded. Memory was refused only by the allocator of a pool. -/
structure HoldsWith {τ : Type} (custom : Bool) (new : Pointer) (q : HeapParser τ) : Prop where
  custom_eq : q.memory.custom = custom
  ledger : q.memory.Ledger q.text.toList (q.string.toList ++ new.toList) q.unquoted
  text : ∀ a, q.text = some a →
    ∃ src, q.memory.heap.get a = some ⟨.library, src ++ [0]⟩ ∧ src.length = q.textLen
  string : ∀ a, q.string = some a →
    ∃ block, q.memory.heap.get a = some block ∧ q.stringMax ≤ block.bytes.length
  refused : q.exhausted = true → custom = true

/-- The live blocks are the text and the string. -/
abbrev Holds {τ : Type} (custom : Bool) (q : HeapParser τ) : Prop := HoldsWith custom none q

/-- The call has a result that keeps the invariant. It is the parser `p`, unless memory is refused;
then the event is an error. -/
def Yields {τ : Type} (custom exhausted : Bool) (call : Option (HeapParser τ)) (p : Parser τ) :
    Prop :=
  ∃ t, call = some t ∧ Holds custom t ∧ (t.exhausted = true ∧ t.event = .error ∨
    t.exhausted = exhausted ∧ t.toParser = p)

section
variable {τ : Type} {ts : TokenSource τ} {custom : Bool} {q : HeapParser τ} {m m' : Memory}
  {new : Pointer} {len : Nat} {a : Nat} {src : Bytes} {block : Block} {as cs : List Nat}

/-- The bytes behind a pointer are those of its block. -/
theorem bytes_of_get (hget : m.heap.get a = some block) : m.bytes (some a) = some block.bytes := by
  rw [Memory.bytes, Option.bind_some, hget, Option.map_some]

/-- A frame keeps the bytes behind the pointers into it. -/
theorem bytes_of_frame (h : Memory.Frame as m m') {p : Pointer} (hp : ∀ a ∈ p, a ∈ as) :
    m'.bytes p = m.bytes p := by
  rcases p with _ | a
  · rfl
  · rw [Memory.bytes, Memory.bytes, Option.bind_some, Option.bind_some, h.agree a (hp a rfl)]

/-- A block that a step leaves alone has the bytes it had. -/
theorem bytes_of_frame_left {p : Pointer} (h : Memory.Frame (p.toList ++ as) m m') :
    m'.bytes p = m.bytes p :=
  bytes_of_frame h fun _ ha => List.mem_append_left as (Option.mem_toList.mpr ha)

/-- The text in memory, with its terminator. -/
theorem string_of_bytes {p : Pointer} (hbytes : m.bytes p = some (src ++ [0])) :
    m.string p src.length = some src := by
  rw [Memory.string, hbytes, Option.bind_eq_bind, Option.bind_some, List.take_left, if_pos rfl]

/-- A string behind a pointer is read without its terminator. -/
theorem load_of_bytes {p : Pointer} (hbytes : m.bytes p = some (src ++ [0])) :
    m.load p src.length = some src := by
  have hlen : src.length ≤ (src ++ [(0 : UInt8)]).length := by
    rw [List.length_append]
    exact Nat.le_add_right _ _
  rw [Memory.load, hbytes, Option.bind_eq_bind, Option.bind_some, if_pos hlen, List.take_left]

/-- `ELTN_unquote_long_string` on the heap, where the text can be read: the string is a copy of it,
in a block that `malloc` gives. -/
theorem unquoteLongString_eq {p : Pointer} (hload : m.load p len = some src) :
    m.unquoteLongString p len = (m.newString src).map fun new => (some new.1, len, new.2) := by
  rw [Memory.unquoteLongString, hload, Option.map_eq_bind]
  rfl

/-- `ELTN_trim_comment` on the heap does the same for the text of a comment. -/
theorem trimComment_eq {p : Pointer} (hload : m.load p len = some src) :
    m.trimComment p len = (m.newString src).map fun new => (some new.1, len, new.2) := by
  rw [Memory.trimComment, hload, Option.map_eq_bind]
  rfl

/-- The invariant depends on the memory, the pointers and their sizes alone. -/
theorem HoldsWith.congr {t : HeapParser τ} (h : HoldsWith custom new q)
    (hmemory : t.memory = q.memory) (htext : t.text = q.text) (htextLen : t.textLen = q.textLen)
    (hstring : t.string = q.string) (hmax : t.stringMax = q.stringMax)
    (hunquoted : t.unquoted = q.unquoted) (hexhausted : t.exhausted = q.exhausted) :
    HoldsWith custom new t := by
  obtain ⟨hcustom, hledger, htext', hstring', hrefused⟩ := h
  constructor
  · rwa [hmemory]
  · rwa [hmemory, htext, hstring, hunquoted]
  · rwa [hmemory, htext, htextLen]
  · rwa [hmemory, hstring, hmax]
  · rwa [hexhausted]

/-- A frame around the text keeps it. -/
theorem HoldsWith.text_of_frame (h : HoldsWith custom new q)
    (hframe : Memory.Frame (q.text.toList ++ as) q.memory m) : ∀ a, q.text = some a →
    ∃ src, m.heap.get a = some ⟨.library, src ++ [0]⟩ ∧ src.length = q.textLen := by
  intro a ha
  obtain ⟨src, hsrc, hlen⟩ := h.text a ha
  exact ⟨src, (hframe.agree a (by simp [ha])).trans hsrc, hlen⟩

/-- A frame around the string keeps it. -/
theorem HoldsWith.string_of_frame (h : HoldsWith custom new q)
    (hframe : Memory.Frame (as ++ (q.string.toList ++ cs)) q.memory m) : ∀ a, q.string = some a →
    ∃ block, m.heap.get a = some block ∧ q.stringMax ≤ block.bytes.length := by
  intro a ha
  obtain ⟨block, hblock, hmax⟩ := h.string a ha
  exact ⟨block, (hframe.agree a (by simp [ha])).trans hblock, hmax⟩

/-- `capture_token_buffer` keeps what is held, and does what the model does: `malloc` refuses
nothing, so the text is always there. -/
theorem captureTokenBuffer_spec (ts : TokenSource τ) (h : Holds custom q) {token : Bytes}
    (htoken : ts.tokenString q.lexer = token) : ∃ t, q.captureTokenBuffer ts = some t ∧
      Holds custom t ∧ t.memory.bytes t.text = some (token ++ [0]) ∧ token.length = t.textLen ∧
      t.exhausted = q.exhausted ∧ t.event = q.event ∧
      t.toParser = q.toParser.update (.captureTokenBuffer token) := by
  obtain ⟨a, m', hnew, hledger', hframe, hget⟩ := h.ledger.newString token
  obtain ⟨m, hfree, hledger'', hframe'⟩ :=
    (hledger'.perm (List.perm_append_singleton a q.text.toList).symm (.refl _)).freeString
  have hself := (hframe'.agree a (by simp)).trans hget
  have hkept : Memory.Frame ([] ++ (q.string.toList ++ [])) q.memory m :=
    (hframe.mono (by simp)).trans (hframe'.mono (by simp))
  refine ⟨{ q with memory := m, text := some a, textLen := token.length }, ?_,
    ⟨hkept.custom.trans h.custom_eq, hledger'', ?_, h.string_of_frame hkept, h.refused⟩,
    bytes_of_get hself, rfl, rfl, rfl, ?_⟩
  · rw [captureTokenBuffer]
    simp only [htoken, hnew, Option.bind_eq_bind, Option.bind_some, hfree]
  · rintro _ ⟨⟩
    exact ⟨_, hself, rfl⟩
  · simp only [toParser, Parser.update, ParserState.captureTokenBuffer, bytes_of_get hself,
      Option.map_some, List.take_left, bytes_of_frame_left hkept]

/-- No block for the string. -/
theorem setUnescaped_none (h : Holds custom { q with memory := m }) (hcustom : custom = true)
    (len : Nat) (p : Parser τ) :
    Yields custom q.exhausted (q.setUnescaped (none, len, m)) p :=
  ⟨_, rfl, ⟨h.custom_eq, h.ledger, h.text, h.string, fun _ => hcustom⟩, .inl ⟨rfl, rfl⟩⟩

/-- A new block for the string. The old one goes back to the pool, and the parser holds the new one
in its place. -/
theorem setUnescaped_some (h : HoldsWith custom (some a) { q with memory := m })
    (hget : m.heap.get a = some block) (hlen : len ≤ block.bytes.length)
    (htext : m.bytes q.text = q.memory.bytes q.text) :
    Yields custom q.exhausted (q.setUnescaped (some a, len, m))
      (q.toParser.update (.setStringRef block.bytes len)) := by
  obtain ⟨m', hfree, hledger', hframe⟩ := h.ledger.free
  have hself := (hframe.agree a (by simp)).trans hget
  refine ⟨{ q with memory := m', string := some a, stringLen := len, stringMax := len }, ?_,
    ⟨hframe.custom.trans h.custom_eq, hledger', h.text_of_frame hframe, ?_, h.refused⟩,
    .inr ⟨rfl, ?_⟩⟩
  · rw [setUnescaped, setStringRef]
    simp only [reduceCtorEq, if_false, hfree, Option.bind_eq_bind, Option.bind_some]
  · rintro _ ⟨⟩
    exact ⟨block, hself, hlen⟩
  · have hbytes : m'.bytes q.text = m.bytes q.text := bytes_of_frame_left hframe
    simp only [toParser, Parser.update, ParserState.setStringRef, hbytes.trans htext,
      bytes_of_get hself]

/-- A pointer is `NULL` where there is no block in the model. -/
theorem HoldsWith.string_eq_none (h : HoldsWith custom new q) :
    q.toParser.string = none ↔ q.string = none := by
  change q.memory.bytes q.string = none ↔ _
  cases hstring : q.string with
  | none => exact ⟨fun _ => rfl, fun _ => rfl⟩
  | some a =>
    obtain ⟨block, hblock, -⟩ := h.string a hstring
    rw [bytes_of_get hblock]
    simp

/-- The reallocation of `set_string_copy`: behind what will be cleared the block is as in the model.
A block that is too short is reallocated, and its bytes are not looked at; one that is long enough
stays. -/
theorem growString_spec (h : Holds custom q) (len : Nat) {st : ParserState}
    (hst : Guarded.growString len q.toParser.toParserState = st) :
    (∃ m, q.growString len = some { q with memory := m, string := none } ∧ custom = true ∧
      Holds custom { q with memory := m, string := none }) ∨
    ∃ m a block, q.growString len = some { q with
        memory := m, string := some a, stringLen := st.stringLen, stringMax := st.stringMax } ∧
      Holds custom { q with
        memory := m, string := some a, stringLen := st.stringLen, stringMax := st.stringMax } ∧
      m.heap.get a = some block ∧ len < st.stringMax ∧
      block.bytes.drop st.stringMax = (st.string.getD []).drop st.stringMax ∧
      m.bytes q.text = q.memory.bytes q.text := by
  rw [growString]
  have hmax : q.toParser.stringMax = q.stringMax := rfl
  simp only [Guarded.growString, h.string_eq_none, hmax] at hst
  split
  · next hgrow =>
    rw [if_pos hgrow] at hst
    obtain ⟨new, m, hrealloc, hledger, hframe, hrefused, hnew⟩ := h.ledger.realloc (len + 1)
    have htext := h.text_of_frame hframe
    rw [hrealloc, Option.bind_eq_bind, Option.bind_some]
    rcases new with _ | a
    · have hcustom := h.custom_eq.symm.trans (hrefused rfl)
      exact .inl ⟨m, rfl, hcustom, hframe.custom.trans h.custom_eq, hledger, htext,
        (fun a ha => by cases ha), h.refused⟩
    · obtain ⟨bytes, hget, hlen⟩ := hnew a rfl
      rw [← hst]
      refine .inr ⟨m, a, _, rfl, ⟨hframe.custom.trans h.custom_eq, hledger, htext, ?_, h.refused⟩,
        hget, Nat.lt_succ_self len, ?_, bytes_of_frame_left hframe⟩
      · rintro _ ⟨⟩
        exact ⟨_, hget, hlen.ge⟩
      · rw [List.drop_of_length_le hlen.le, Option.getD_some, List.drop_replicate]
        simp
  · next hfits =>
    rw [if_neg hfits] at hst
    obtain ⟨hnull, hmax⟩ := not_or.mp hfits
    obtain ⟨a, ha⟩ := Option.ne_none_iff_exists'.mp hnull
    obtain ⟨block, hblock, -⟩ := h.string a ha
    rw [← hst]
    refine .inr ⟨q.memory, a, block, ?_, ?_, hblock, Nat.not_le.mp hmax, ?_, rfl⟩
    · rw [← ha]
      rfl
    · rw [← ha]
      exact h
    · change _ = ((q.memory.bytes q.string).getD []).drop _
      rw [ha, bytes_of_get hblock, Option.getD_some]

/-- **`set_string_copy`**, of the text, does what the model does, or signals that there was no
memory, where the allocator of a pool has refused it. Clearing and copying stay within the block
since it is longer than the text (`Guarded.storeAll_cleared`), and the text is read from a block of
its own. -/
theorem setStringCopy_spec (h : Holds custom q) (htext : q.memory.bytes q.text = some (src ++ [0]))
    (hlen : src.length = q.textLen) : ∃ ok t, q.setStringCopy q.text q.textLen = some (ok, t) ∧
      Holds custom t ∧ t.textLen = q.textLen ∧ (ok = false ∧ t.exhausted = true ∧ t.event = .error ∨
        ok = true ∧ t.exhausted = q.exhausted ∧ t.event = q.event ∧
          t.toParser = q.toParser.update (.setStringCopy src)) := by
  obtain ⟨st, hst⟩ : ∃ st, Guarded.growString src.length q.toParser.toParserState = st := ⟨_, rfl⟩
  rw [setStringCopy, ← hlen]
  rcases growString_spec h src.length hst with ⟨m, hgrow, hcustom, hholds⟩ |
    ⟨m, a, block, hgrow, hholds, hblock, hmax, hrest, htext'⟩
  · rw [hgrow, Option.bind_eq_bind, Option.bind_some]
    refine ⟨false, _, rfl, ?_, hlen.symm, .inl ⟨rfl, rfl, rfl⟩⟩
    obtain ⟨hcustom', hledger, htext, hstring, -⟩ := hholds
    exact ⟨hcustom', hledger, htext, hstring, fun _ => hcustom⟩
  · obtain ⟨block', hblock', hfits⟩ := hholds.string a rfl
    cases hblock.symm.trans hblock'
    have hclear := Guarded.storeAll_cleared hfits hmax
    obtain ⟨m', hstore, hledger', hframe, hget⟩ := hholds.ledger.store hblock
      (src ++ (List.replicate st.stringMax 0 ++ block.bytes.drop st.stringMax).drop src.length)
    have hload : m.load q.text src.length = some src := load_of_bytes (htext'.trans htext)
    have hnull : q.text ≠ none := by
      intro hnone
      rw [hnone] at htext
      cases htext
    refine ⟨true, { q with
      memory := m', string := some a, stringLen := src.length, stringMax := st.stringMax }, ?_, ?_,
      hlen.symm, .inr ⟨rfl, rfl, rfl, ?_⟩⟩
    · obtain ⟨cleared, hcleared, hcopy⟩ := Option.bind_eq_some_iff.mp hclear
      rw [hgrow]
      simp only [Option.bind_eq_bind, Option.bind_some, bytes_of_get hblock, hcleared,
        if_neg hnull, hload, hcopy, hstore]
    · refine ⟨hframe.custom.trans hholds.custom_eq, hledger', hholds.text_of_frame hframe, ?_,
        hholds.refused⟩
      rintro _ ⟨⟩
      refine ⟨_, hget, ?_⟩
      simp only [List.length_append, List.length_drop, List.length_replicate]
      omega
    · have hframed : st = { q.toParser.toParserState with
          string := st.string, stringLen := st.stringLen, stringMax := st.stringMax } := by
        rw [← hst, Guarded.growString]
        split <;> rfl
      have htext'' : m'.bytes q.text = q.memory.bytes q.text :=
        (bytes_of_frame_left hframe).trans htext'
      rw [Parser.update, Guarded.setStringCopy_grown, hst, ← hrest, hframed]
      simp only [toParser, bytes_of_get hget, htext'']

/-- What the unescaper gives, in a block of the size of the literal, or no block where the allocator
of a pool has refused it. -/
theorem unescapeQuotedString_spec (h : Holds custom q)
    (htext : q.memory.bytes q.text = some (src ++ [0])) (hlen : src.length = q.textLen) :
    ∃ new len m, q.memory.unescapeQuotedString q.text q.textLen = some (new, len, m) ∧
      HoldsWith custom new { q with memory := m } ∧ (new = none → custom = true) ∧
      ∀ a, new = some a → m.bytes q.text = q.memory.bytes q.text ∧
        len = (unescapeQuotedString src).2.length ∧ ∃ o, m.heap.get a = some ⟨o,
          (unescapeQuotedString src).2 ++
            List.replicate (src.length - (unescapeQuotedString src).2.length) 0⟩ := by
  obtain ⟨new, m, halloc, hledger, hframe, hrefused, hnew⟩ := h.ledger.alloc q.textLen
  rw [Memory.unescapeQuotedString, halloc]
  rcases new with _ | a
  · exact ⟨none, 0, m, rfl, ⟨hframe.custom.trans h.custom_eq, hledger, h.text_of_frame hframe,
      h.string_of_frame hframe, h.refused⟩,
      fun _ => h.custom_eq.symm.trans (hrefused rfl), fun a ha => by cases ha⟩
  · obtain ⟨m', hstore, hledger', hframe', hget⟩ := hledger.store (hnew a rfl)
      (Guarded.filled src.length (unescapeQuotedString src).2).bufptr
    have hboth := hframe.trans hframe'
    have hstring : m.string q.text src.length = some src :=
      string_of_bytes ((bytes_of_frame_left hframe).trans htext)
    have hswap : (a :: (q.string.toList ++ [])).Perm (q.string.toList ++ [a]) := by
      rw [List.append_nil]
      exact (List.perm_append_singleton a q.string.toList).symm
    refine ⟨some a, (unescapeQuotedString src).2.length, m', ?_,
      ⟨hboth.custom.trans h.custom_eq, hledger'.perm (.refl _) hswap, h.text_of_frame hboth,
        h.string_of_frame hboth, h.refused⟩,
      (fun hnone => by cases hnone), fun c hc => ?_⟩
    · simp only [← hlen, hstring, Option.bind_eq_bind, Option.bind_some,
        (Guarded.unescapeQuotedString_filled src).1, hstore]
      rfl
    · cases hc
      exact ⟨bytes_of_frame_left hboth, rfl, _, hget⟩

/-- A copy of the text in a block of the library is held by the parser besides its own blocks, until
it takes the place of the string. -/
theorem copy_spec (h : Holds custom q) (src : Bytes) :
    ∃ a m, q.memory.newString src = some (a, m) ∧
      HoldsWith custom (some a) { q with memory := m, unquoted := q.unquoted + 1 } ∧
      m.bytes q.text = q.memory.bytes q.text ∧
      m.heap.get a = some ⟨.library, src ++ [0]⟩ := by
  obtain ⟨a, m, hnew, hledger, hframe, hget⟩ := h.ledger.newString src
  have hswap : (a :: (q.string.toList ++ [])).Perm (q.string.toList ++ [a]) := by
    rw [List.append_nil]
    exact (List.perm_append_singleton a q.string.toList).symm
  exact ⟨a, m, hnew, ⟨hframe.custom.trans h.custom_eq, hledger.handOver.perm (.refl _) hswap,
    h.text_of_frame hframe, h.string_of_frame hframe, h.refused⟩,
    bytes_of_frame_left hframe, hget⟩

/-- The case of a quoted string in `set_event`: what the unescaper has stored becomes the string, or
the refusal is signalled. -/
theorem unescaped_yields (h : Holds custom q)
    (htext : q.memory.bytes q.text = some (src ++ [0])) (hlen : src.length = q.textLen) :
    Yields custom q.exhausted
      ((q.memory.unescapeQuotedString q.text q.textLen).bind fun result => q.setUnescaped result)
      (q.toParser.update (.setStringRef ((unescapeQuotedString src).2 ++
        List.replicate (src.length - (unescapeQuotedString src).2.length) 0)
        (unescapeQuotedString src).2.length)) := by
  obtain ⟨new, len, m, hcall, hholds, hrefused, hnew⟩ := unescapeQuotedString_spec h htext hlen
  rw [hcall, Option.bind_some]
  rcases new with _ | a
  · exact setUnescaped_none hholds (hrefused rfl) len _
  · obtain ⟨hbytes, rfl, o, hget⟩ := hnew a rfl
    exact setUnescaped_some hholds hget (by simp) hbytes

/-- The cases of a long string and of a comment in `set_event`: a block of the library takes the
place of the string, which is what crosses over to the pool later. -/
theorem copied_yields (h : Holds custom q) (hlen : src.length = q.textLen) :
    Yields custom q.exhausted
      (((q.memory.newString src).map fun new => (some new.1, q.textLen, new.2)).bind fun result =>
        q.countUnquoted.setUnescaped result)
      (q.toParser.update (.setStringRef (src ++ [0]) src.length)) := by
  obtain ⟨a, m, hnew, hholds, hbytes, hget⟩ := copy_spec h src
  have hroom : src.length ≤ (src ++ [(0 : UInt8)]).length := by
    rw [List.length_append]
    exact Nat.le_add_right _ _
  rw [hnew, Option.map_some, Option.bind_some, ← hlen]
  exact setUnescaped_some (q := q.countUnquoted) hholds hget hroom hbytes

/-- The other cases of `set_event`: the text is copied to the string's own block. -/
theorem setStringCopy_yields (h : Holds custom q)
    (htext : q.memory.bytes q.text = some (src ++ [0])) (hlen : src.length = q.textLen) :
    Yields custom q.exhausted
      ((q.setStringCopy q.text q.textLen).bind fun result =>
        some (if !result.1 then result.2.signalOutOfMemory else result.2))
      (q.toParser.update (.setStringCopy src)) := by
  obtain ⟨ok, t, hset, ht, -, ⟨rfl, hrefused, -⟩ | ⟨rfl, hsame, -, hmodel⟩⟩ :=
    setStringCopy_spec h htext hlen
  · exact ⟨t.signalOutOfMemory, by rw [hset]; rfl, ⟨ht.custom_eq, ht.ledger, ht.text, ht.string,
      fun _ => ht.refused hrefused⟩, .inl ⟨rfl, rfl⟩⟩
  · exact ⟨t, by rw [hset]; rfl, ht, .inr ⟨hsame, hmodel⟩⟩

/-- **`set_event`** does what the model does, or signals that there was no memory, and keeps what is
held in both cases. -/
theorem setEvent_yields (ts : TokenSource τ) (h : Holds custom q) (token : Token) (e : Event) :
    Yields custom q.exhausted (q.setEvent ts token e) (q.toParser.setEvent ts token e) := by
  have hevent : Holds custom { q with event := e } := h.congr rfl rfl rfl rfl rfl rfl rfl
  obtain ⟨src, hsrc⟩ : ∃ src, ts.tokenString q.lexer = src := ⟨_, rfl⟩
  have hmodel : q.toParser.setEvent ts token e =
      q.toParser.update (.setEvent token e src) := by
    rw [← hsrc]
    rfl
  obtain ⟨q', hcapture, hholds, htext, hlen, hexhausted, -, hcaptured⟩ :=
    captureTokenBuffer_spec ts hevent hsrc
  have hload : q'.memory.load q'.text q'.textLen = some src := hlen ▸ load_of_bytes htext
  have hsame : q'.exhausted = q.exhausted := hexhausted
  have hcopied := copied_yields hholds hlen
  have hcopy := setStringCopy_yields hholds htext hlen
  rw [hcaptured, hsame] at hcopied hcopy
  rw [setEvent, hcapture, Option.bind_eq_bind, Option.bind_some, hmodel]
  cases token with
  | string =>
    have hunescaped := unescaped_yields hholds htext hlen
    rw [hcaptured, hsame] at hunescaped
    exact hunescaped
  | longString =>
    dsimp only
    rw [unquoteLongString_eq hload]
    exact hcopied
  | comment | longComment =>
    dsimp only
    rw [trimComment_eq hload]
    exact hcopied
  | _ => exact hcopy

/-- **`signal_error`** does what the model does, or finds no memory for its string, which leaves the
event an error all the same. -/
theorem signalError_yields (ts : TokenSource τ) (h : Holds custom q) (token : Token)
    (line column : Nat) : Yields custom q.exhausted (q.signalError ts token line column)
      (q.toParser.signalError ts token (line, column)) := by
  have hevent : Holds custom { q with event := .error } := h.congr rfl rfl rfl rfl rfl rfl rfl
  obtain ⟨src, hsrc⟩ : ∃ src, ts.tokenString q.lexer = src := ⟨_, rfl⟩
  obtain ⟨q', hcapture, hholds, htext, hlen, hexhausted, herror, hcaptured⟩ :=
    captureTokenBuffer_spec ts hevent hsrc
  obtain ⟨ok, t, hset, ht, -, hcases⟩ := setStringCopy_spec hholds htext hlen
  refine ⟨{ t with
    errline := line, errcolumn := column, errcode := ParserState.errorCode token }, ?_,
    ht.congr rfl rfl rfl rfl rfl rfl rfl, ?_⟩
  · rw [signalError, hcapture, Option.bind_eq_bind, Option.bind_some, hset]
    rfl
  · refine hcases.imp (fun h => ⟨h.2.1, h.2.2⟩) fun ⟨_, hsame, _, hmodel⟩ => ?_
    refine ⟨hsame.trans hexhausted, ?_⟩
    rw [hcaptured] at hmodel
    calc _ = t.toParser.update fun s => { s with
          errline := line, errcolumn := column, errcode := ParserState.errorCode token } := rfl
      _ = q.toParser.signalError ts token (line, column) := by rw [hmodel, ← hsrc]; rfl

/-- **One operation** keeps the invariant, and does what it does to the parser of the model unless
memory is refused. -/
theorem handler_holds (ts : TokenSource τ) (o : Operation) (h : Holds custom q) :
    ∃ r t, handler ts o q = some (r, t) ∧ Holds custom t ∧
      (t.exhausted = true ∨ t.exhausted = q.exhausted ∧
        Parser.handler ts o q.toParser = some (r, t.toParser)) := by
  have hframe {t : HeapParser τ} (hmemory : t.memory = q.memory) (htext : t.text = q.text)
      (htextLen : t.textLen = q.textLen) (hstring : t.string = q.string)
      (hmax : t.stringMax = q.stringMax) (hunquoted : t.unquoted = q.unquoted)
      (hexhausted : t.exhausted = q.exhausted) : Holds custom t :=
    h.congr hmemory htext htextLen hstring hmax hunquoted hexhausted
  cases o with
  | setEvent token e =>
    obtain ⟨t, hset, ht, hcases⟩ := setEvent_yields ts h token e
    refine ⟨(), t, by rw [handler, hset]; rfl, ht, hcases.imp (·.1) fun hsame => ?_⟩
    exact ⟨hsame.1, by rw [Parser.handler, hsame.2]⟩
  | signalError token line column =>
    obtain ⟨t, hset, ht, hcases⟩ := signalError_yields ts h token line column
    refine ⟨(), t, by rw [handler, hset]; rfl, ht, hcases.imp (·.1) fun hsame => ?_⟩
    exact ⟨hsame.1, by rw [Parser.handler, hsame.2]⟩
  | _ => exact ⟨_, _, rfl, hframe rfl rfl rfl rfl rfl rfl rfl, .inr ⟨rfl, rfl⟩⟩

end

end HeapParser

end Eltn
