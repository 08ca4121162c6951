import Eltn.Parser.Run
import Eltn.Unescape.Memory

/-!
# The block behind the string

`ELTN_Parser_next` with the block of `self->string` in memory: `set_string_copy` fills it in place,
and has no result when `memset` or `memcpy` would leave it. `Tracked` keeps next to the fields of
the parser which of the two setters was called last, and so which bytes are the value. Every call
has a result, the parser of the model (`next_tracks`), and after any number of calls the block holds
the value and nothing of the strings before it (`after_block`).
-/

namespace Eltn

/-! ## Numbers -/

/-- The events of numbers. -/
def Event.isNumber (e : Event) : Bool :=
  e = .keyNumber || e = .keyInteger || e = .valueNumber || e = .valueInteger

namespace ParserState

section
variable {token : Token} {e : Event}

/-- Only a number token is reported as a key that is a number. -/
theorem keyEvent_isNumber (h : keyEvent token = some e) (he : e.isNumber = true) :
    token = .number ∨ token = .integer := by
  cases token with
  | number => exact .inl rfl
  | integer => exact .inr rfl
  | string | longString =>
    cases h
    cases he
  | _ => cases h

/-- Only a number token is reported as a value that is a number. -/
theorem scalarEvent_isNumber (h : scalarEvent token = some e) (he : e.isNumber = true) :
    token = .number ∨ token = .integer := by
  cases token with
  | number => exact .inl rfl
  | integer => exact .inr rfl
  | string | longString | booleanTrue | booleanFalse | nil =>
    cases h
    cases he
  | _ => cases h

end

end ParserState

/-- The terminator is inside the block, whatever size it had before. -/
theorem ParserState.setStringCopy_string (text : Bytes) (self : ParserState) :
    ∃ rest, (self.setStringCopy text).string = some (text ++ 0 :: rest) := by
  rw [setStringCopy]
  dsimp only
  split
  · exact ⟨[], by simp⟩
  · next hblock =>
    obtain ⟨k, hk⟩ := Nat.exists_eq_add_of_lt (Nat.not_le.mp (not_or.mp hblock).2)
    have hmax : self.stringMax = text.length + (k + 1) := by omega
    rw [hmax]
    exact ⟨_, by
      rw [← List.replicate_append_replicate, List.append_assoc, List.drop_left' (by simp),
        List.replicate_succ, List.cons_append]⟩

namespace Guarded

/-! ## The setters -/

/-- The reallocation of `set_string_copy`, where the block is missing or not longer than the string.
The new block is longer by the terminator. -/
def growString (len : Nat) (self : ParserState) : ParserState :=
  if self.string = none ∨ self.stringMax ≤ len then
    { self with
      string := some (List.replicate (len + 1) 0), stringLen := len, stringMax := len + 1 }
  else self

/-- `set_string_copy`, with a result where both of its stores are inside the block: the clearing, of
the recorded size, and the copy. -/
def setStringCopy (str : Bytes) (self : ParserState) : Option ParserState := do
  let self := growString str.length self
  let string ← self.string
  let string ← Blocks.storeAll (List.replicate self.stringMax 0) 0 string
  let string ← Blocks.storeAll str 0 string
  some { self with string := some string, stringLen := str.length }

/-- `set_event`, with a result where the string has one: a quoted string is unescaped into a block
of its own, and a text that is copied must fit in the block. -/
def setEvent (token : Token) (event : Event) (text : Bytes) (self : ParserState) :
    Option ParserState :=
  let self := { self with event := event }.captureTokenBuffer text
  match token with
  | .string => (unescapeQuotedString text).map fun str => self.setStringRef str.bufptr str.buflen
  | .longString =>
    some (self.setStringRef (unquoteLongString text ++ [0]) (unquoteLongString text).length)
  | .comment => some (self.setStringRef (trimComment text ++ [0]) (trimComment text).length)
  | .longComment => some (self.setStringRef (trimComment text ++ [0]) (trimComment text).length)
  | _ => setStringCopy text self

/-- `signal_error`, with a result where the copy of the text has one. -/
def signalError (token : Token) (line column : Nat) (text : Bytes) (self : ParserState) :
    Option ParserState := do
  let self ← setStringCopy text ({ self with event := .error }.captureTokenBuffer text)
  some { self with errline := line, errcolumn := column, errcode := ParserState.errorCode token }

/-- The call that set the string: `set_event` on a token, or `signal_error`. The parser does not
record it. -/
inductive Setting where
  | event (token : Token)
  | error
deriving DecidableEq, Repr

/-- The value of the event, `text` being the text of its token: what a quoted string stands for, and
the text of every other token. -/
def Setting.value (text : Bytes) : Setting → Bytes
  | .event .string => (Eltn.unescapeQuotedString text).2
  | .event .longString => unquoteLongString text
  | .event .comment => trimComment text
  | .event .longComment => trimComment text
  | _ => text

/-- The string was set by `set_string_copy`. -/
def Setting.copied : Setting → Bool
  | .event token => token ∉ [.string, .longString, .comment, .longComment]
  | .error => true

/-- What is copied is the text. -/
theorem Setting.value_copied {s : Setting} {text : Bytes} (h : s.copied = true) :
    s.value text = text := by
  cases s with
  | error => rfl
  | event token => cases token <;> first | rfl | cases h

/-! ## The parser -/

/-- The parser, and what set its string. -/
structure Tracked (τ : Type) extends Parser τ where
  setting : Option Setting := none

namespace Tracked

variable {τ : Type} (ts : TokenSource τ)

/-- A change of fields that are not about the string. -/
def update (f : ParserState → ParserState) (self : Tracked τ) : Tracked τ :=
  { self with toParserState := f self.toParserState }

/-- `set_event` on the token in the lexer. -/
def setEvent (token : Token) (event : Event) (self : Tracked τ) : Option (Tracked τ) :=
  (Guarded.setEvent token event (self.tokenText ts) self.toParserState).map fun s =>
    { self with toParserState := s, setting := some (.event token) }

/-- `signal_error` on the token in the lexer. -/
def signalError (token : Token) (pos : Nat × Nat) (self : Tracked τ) : Option (Tracked τ) :=
  (Guarded.signalError token pos.1 pos.2 (self.tokenText ts) self.toParserState).map fun s =>
    { self with toParserState := s, setting := some .error }

/-- `next_token`. -/
def nextToken (self : Tracked τ) : (Token × Nat × Nat) × Tracked τ :=
  let read := self.toParser.nextToken ts
  (read.1, { self with toParser := read.2 })

/-- `expect_value`; the inner `none` is `false`, and the outer one a store outside of the block. -/
def expectValue (token : Token) (self : Tracked τ) : Option (Option (Tracked τ)) :=
  match ParserState.scalarEvent token with
  | some e => (self.setEvent ts token e).map some
  | none =>
    if token = .curlyOpen then ((self.setEvent ts token .tableStart).map (update .push)).map some
    else some none

/-- `expect_table_start`. -/
def expectTableStart (token : Token) (self : Tracked τ) : Option (Option (Tracked τ)) :=
  if token = .curlyOpen then ((self.setEvent ts token .tableStart).map (update .push)).map some
  else some none

/-- `expect_table_end`, with the same two ways of giving none. -/
def expectTableEnd (token : Token) (self : Tracked τ) : Option (Option (Tracked τ)) :=
  if token = .curlyClose ∧ self.depth > 0 then
    ((self.setEvent ts token .tableEnd).map (update .pop)).map some
  else some none

/-- `expect_stream_end`. -/
def expectStreamEnd (token : Token) (self : Tracked τ) : Option (Option (Tracked τ)) :=
  if token = .eof then (self.setEvent ts token .streamEnd).map some else some none

/-- One of the `expect_*` functions, or else what follows when it is `false`. -/
def orElse (expected : Option (Option (Tracked τ))) (other : Option (Tracked τ)) :
    Option (Tracked τ) :=
  expected.bind fun result => result.elim other some

/-- `expect_new_entry`, without a result where an event or an error sets a string outside of its
block. -/
def expectNewEntry (token : Token) (pos : Nat × Nat) (self : Tracked τ) :
    Option (Bool × (Nat × Nat) × Tracked τ) :=
  if token = .name then (self.setEvent ts token .keyString).map fun self => (true, pos, self)
  else if token = .squareOpen then
    let key := self.nextToken ts
    match ParserState.keyEvent key.1.1 with
    | none => some (false, key.1.2, key.2)
    | some e => do
      let self ← key.2.setEvent ts key.1.1 e
      let close := self.nextToken ts
      if close.1.1 ≠ .squareClose then
        (close.2.signalError ts close.1.1 close.1.2).map fun self => (true, close.1.2, self)
      else some (true, close.1.2, close.2)
  else (self.expectValue ts token).map fun result =>
    result.elim (false, pos, self) fun self => (true, pos, self)

/-- `expect_new_definition`, likewise. The semicolons are read by the loop of the model, which sets
no string. -/
def expectNewDefinition (token : Token) (pos : Nat × Nat) (self : Tracked τ) :
    Option (Bool × (Nat × Nat) × Tracked τ) :=
  let read := Parser.skipSemicolons ts (ts.limit self.lexer + 1) token pos self.toParser
  let self := { self with toParser := read.2 }
  if read.1.1 = .name then
    (self.setEvent ts read.1.1 .defName).map fun self => (true, read.1.2, self)
  else some (false, read.1.2, self)

/-- The cases of `ELTN_Parser_next` that expect a definition or the end of the input, with a result
where every string that is set has one. -/
def nextDefinition (token : Token) (pos : Nat × Nat) (self : Tracked τ) : Option (Tracked τ) :=
  (self.expectNewDefinition ts token pos).bind fun definition =>
  if definition.1 then some definition.2.2
  else orElse (definition.2.2.expectStreamEnd ts token)
    (definition.2.2.signalError ts token definition.2.1)

/-- The cases of `ELTN_Parser_next` that expect an entry or the end of a table, likewise. -/
def nextEntry (token : Token) (pos : Nat × Nat) (self : Tracked τ) : Option (Tracked τ) :=
  (self.expectNewEntry ts token pos).bind fun entry =>
  if entry.1 then some entry.2.2
  else orElse (entry.2.2.expectTableEnd ts token) (entry.2.2.signalError ts token entry.2.1)

/-- The cases of `ELTN_Parser_next` that expect an equals sign and a value, likewise. -/
def nextValue (token : Token) (pos : Nat × Nat) (self : Tracked τ) : Option (Tracked τ) :=
  if token ≠ .equals then self.signalError ts token pos
  else
    let read := self.nextToken ts
    orElse (read.2.expectValue ts read.1.1) (read.2.signalError ts read.1.1 read.1.2)

/-- The cases of `ELTN_Parser_next` behind a value, likewise. -/
def nextAfterValue (token : Token) (pos : Nat × Nat) (self : Tracked τ) : Option (Tracked τ) :=
  if self.depth = 0 then
    if !self.noDefs then self.nextDefinition ts token pos
    else orElse (self.expectStreamEnd ts token) (self.signalError ts token pos)
  else if token = .comma ∨ token = .semicolon then
    let read := self.nextToken ts
    read.2.nextEntry ts read.1.1 read.1.2
  else orElse (self.expectTableEnd ts token) (self.signalError ts token pos)

/-- The case of `ELTN_Parser_next` at the start, a table or the first definition. -/
def nextFirst (token : Token) (pos : Nat × Nat) (self : Tracked τ) : Option (Tracked τ) :=
  orElse ((self.expectTableStart ts token).map fun result =>
      result.map fun self => self.update fun s => { s with noDefs := true })
    (self.nextDefinition ts token pos)

/-- `ELTN_Parser_next`, in the cases of the model; there is a result where every string that the
call sets stays in its block. -/
def next (self : Tracked τ) : Option (Tracked τ) :=
  let self :=
    if self.event ≠ .comment then self.update fun s => { s with lastEvent := s.event } else self
  let read := self.nextToken ts
  let token := read.1.1
  let pos := read.1.2
  let self := read.2
  match self.lastEvent with
  | .streamStart => self.nextFirst ts token pos
  | .comment => some self
  | .defName => self.nextValue ts token pos
  | .keyString => self.nextValue ts token pos
  | .keyNumber => self.nextValue ts token pos
  | .keyInteger => self.nextValue ts token pos
  | .tableEnd => self.nextAfterValue ts token pos
  | .valueString => self.nextAfterValue ts token pos
  | .valueNumber => self.nextAfterValue ts token pos
  | .valueInteger => self.nextAfterValue ts token pos
  | .valueTrue => self.nextAfterValue ts token pos
  | .valueFalse => self.nextAfterValue ts token pos
  | .valueNil => self.nextAfterValue ts token pos
  | .tableStart => self.nextEntry ts token pos
  | .streamEnd => some self
  | .error => some self

/-- A new parser after `n` calls of `ELTN_Parser_next`. -/
def after (lexer : τ) : Nat → Option (Tracked τ)
  | 0 => some { toParser := Parser.new lexer }
  | n + 1 => (after lexer n).bind (next ts)

end Tracked

/-! ## One setting of the string -/

/-- The recorded size is at most that of the block. -/
def Sized (st : ParserState) : Prop :=
  ∀ block, st.string = some block → st.stringMax ≤ block.length

/-- The block starts with the value of what set it, and the recorded length is that of the value;
behind a copy there is a zero byte in the block. -/
structure Settled (s : Setting) (st : ParserState) : Prop where
  size : st.stringMax ≤ (st.string.getD []).length
  len : st.stringLen = (s.value st.textValue).length
  value : (st.string.getD []).take st.stringLen = s.value st.textValue
  terminated : s.copied = true → (st.string.getD [])[st.stringLen]? = some 0

section
variable {st : ParserState} {s : Setting} {block text : Bytes}

/-- Behind an event the block of the string is as long as it is recorded. -/
theorem Settled.sized (h : Settled s st) : Sized st := by
  intro block hblock
  have hsize := h.size
  rwa [hblock, Option.getD_some] at hsize

/-- Behind a copied value stands a zero byte. So a reader of the string that looks for its end finds
it there. -/
theorem Settled.string_eq (h : Settled s st) (hcopied : s.copied = true) :
    ∃ rest, st.string = some (s.value st.textValue ++ 0 :: rest) := by
  have hzero := h.terminated hcopied
  have hvalue := h.value
  cases hstring : st.string with
  | none =>
    rw [hstring] at hzero
    cases hzero
  | some block =>
    rw [hstring, Option.getD_some] at hzero hvalue
    obtain ⟨hlen, hbyte⟩ := List.getElem?_eq_some_iff.mp hzero
    refine ⟨block.drop (st.stringLen + 1), ?_⟩
    rw [← hvalue, ← hbyte, ← List.drop_eq_getElem_cons hlen, List.take_append_drop]

/-- A block that starts with the value, and is not shorter than its recorded size, settles the
string. -/
theorem settled_of_append (rest : Bytes) (hstring : st.string = some (s.value st.textValue ++ rest))
    (hlen : st.stringLen = (s.value st.textValue).length)
    (hsize : st.stringMax ≤ (s.value st.textValue ++ rest).length)
    (hzero : s.copied = true → rest.head? = some 0) : Settled s st where
  size := by rwa [hstring, Option.getD_some]
  len := hlen
  value := by rw [hstring, Option.getD_some, hlen, List.take_left]
  terminated hs := by
    rw [hstring, Option.getD_some, hlen, List.getElem?_append_right (le_refl _), Nat.sub_self,
      ← List.head?_eq_getElem?]
    exact hzero hs

/-- `memset` and `memcpy` in a block that is larger than the text: what is behind the text is
cleared up to the recorded size. -/
theorem storeAll_cleared {max : Nat} (hmax : max ≤ block.length) (hlen : text.length < max) :
    (Blocks.storeAll (List.replicate max 0) 0 block).bind (Blocks.storeAll text 0) =
      some (text ++ (List.replicate max 0 ++ block.drop max).drop text.length) := by
  have hset : Blocks.storeAll (List.replicate max 0) 0 block =
      some (List.replicate max 0 ++ block.drop max) := by
    have hroom : Blocks.storeAll (List.replicate max 0) 0 block =
        some ([] ++ List.replicate max 0 ++ block.drop (List.replicate max (0 : UInt8)).length) :=
      Blocks.storeAll_room [] (by rwa [List.length_replicate])
    rwa [List.length_replicate, List.nil_append] at hroom
  have hroom : text.length ≤ (List.replicate max 0 ++ block.drop max).length := by
    rw [List.length_append, List.length_replicate]
    omega
  rw [hset, Option.bind_some]
  exact Blocks.storeAll_room [] hroom

/-- The block, old or new, has the recorded size, which is more than the length of the text. -/
theorem growString_block (h : Sized st) (len : Nat) : ∃ block,
    (growString len st).string = some block ∧ (growString len st).stringMax ≤ block.length ∧
      len < (growString len st).stringMax := by
  rw [growString]
  split
  · exact ⟨_, rfl, List.length_replicate.ge, Nat.lt_succ_self len⟩
  · next hblock =>
    obtain ⟨hstring, hmax⟩ := not_or.mp hblock
    obtain ⟨block, hstring⟩ := Option.ne_none_iff_exists'.mp hstring
    exact ⟨block, hstring, h block hstring, Nat.not_le.mp hmax⟩

/-- `set_string_copy` grows the block where the text is longer than any before it, and copies the
text to its front. -/
theorem setStringCopy_grown (text : Bytes) (st : ParserState) : st.setStringCopy text =
    { growString text.length st with
      string := some (text ++ (List.replicate (growString text.length st).stringMax 0 ++
        ((growString text.length st).string.getD []).drop
          (growString text.length st).stringMax).drop text.length)
      stringLen := text.length } := rfl

/-- **`set_string_copy` stays in its block**, if the recorded size is that of the block, and does
there what it does in the model. -/
theorem setStringCopy_eq (st : ParserState) (h : Sized st) (text : Bytes) :
    setStringCopy text st = some (st.setStringCopy text) := by
  obtain ⟨block, hblock, hmax, hlen⟩ := growString_block h text.length
  rw [setStringCopy_grown, setStringCopy, hblock]
  simp only [Option.bind_eq_bind, Option.bind_some]
  rw [← Option.bind_assoc, storeAll_cleared hmax hlen]
  rfl

/-- A copy settles the string, whatever value is the text: the block holds it with a terminator
behind it. -/
theorem setStringCopy_settled (hs : s.value text = text) (htext : st.text = some text) :
    Settled s (st.setStringCopy text) := by
  obtain ⟨rest, hstring⟩ := ParserState.setStringCopy_string text st
  have hvalue : s.value (st.setStringCopy text).textValue = text := by
    obtain ⟨_, _, _, hframe⟩ := st.setStringCopy_frame text
    rw [hframe, ParserState.textValue, htext, Option.getD_some, hs]
  have hsize : (st.setStringCopy text).stringMax ≤
      ((st.setStringCopy text).string.getD []).length := by
    rw [setStringCopy_grown]
    dsimp only
    rw [Option.getD_some, List.length_append, List.length_drop, List.length_append,
      List.length_replicate]
    omega
  rw [hstring, Option.getD_some] at hsize
  refine settled_of_append (0 :: rest) ?_ ?_ ?_ fun _ => rfl
  · rw [hvalue, hstring]
  · rw [hvalue, setStringCopy_grown]
  · rwa [hvalue]

/-- `set_event` on a parser whose block is as long as it is recorded: every access is inside, the
result is that of the model without blocks, and the block is settled for the event. -/
theorem setEvent_settled (h : Sized st) (token : Token) (e : Event) (text : Bytes) :
    setEvent token e text st = some (st.setEvent token e text) ∧
      Settled (.event token) (st.setEvent token e text) := by
  cases token with
  | string =>
    obtain ⟨hcall, hroom⟩ := unescapeQuotedString_filled text
    constructor
    · rw [setEvent, hcall]
      rfl
    · refine settled_of_append _ rfl rfl ?_ fun hcopied => absurd hcopied (by decide)
      rw [List.length_append]
      exact Nat.le_add_right _ _
  | longString | comment | longComment =>
    refine ⟨rfl, settled_of_append _ rfl rfl ?_ fun hcopied => absurd hcopied (by decide)⟩
    rw [List.length_append]
    exact Nat.le_add_right _ _
  | _ =>
    have hcopy := setStringCopy_eq ({ st with event := e }.captureTokenBuffer text) h text
    exact ⟨hcopy, setStringCopy_settled rfl rfl⟩

/-- `signal_error` does the same for an error. -/
theorem signalError_settled (h : Sized st) (token : Token) (line column : Nat) (text : Bytes) :
    signalError token line column text st = some (st.signalError token line column text) ∧
      Settled .error (st.signalError token line column text) := by
  have hcopy := setStringCopy_eq ({ st with event := .error }.captureTokenBuffer text) h text
  have hsettled : Settled .error
      (({ st with event := .error }.captureTokenBuffer text).setStringCopy text) :=
    setStringCopy_settled rfl rfl
  constructor
  · rw [signalError, hcopy]
    rfl
  · exact ⟨hsettled.size, hsettled.len, hsettled.value, hsettled.terminated⟩

end

/-! ## Calls -/

namespace Tracked

/-- The string is settled, and behind the event of a number by a copy. -/
def Ready {τ : Type} (q : Tracked τ) : Prop :=
  ∃ s, q.setting = some s ∧ Settled s q.toParserState ∧
    (q.event.isNumber = true → s.copied = true)

/-- A call stays in the block and does what the parser does; then the string is settled. -/
def Tracks {τ : Type} (call : Option (Tracked τ)) (p : Parser τ) : Prop :=
  ∃ q, call = some q ∧ q.toParser = p ∧ Ready q

/-- So does one of the `expect_*` functions, unless both have nothing to do: both set an event and
stay ready, or both are `false`. -/
def TracksTry {τ : Type} (call : Option (Option (Tracked τ))) (result : Option (Parser τ)) :
    Prop :=
  (∃ q, call = some (some q) ∧ result = some q.toParser ∧ Ready q) ∨
    (call = some none ∧ result = none)

section
variable {τ : Type} {ts : TokenSource τ} {q q' : Tracked τ} {p : Parser τ} {token : Token}
  {e : Event} {pos : Nat × Nat} {call other : Option (Tracked τ)} {f : ParserState → ParserState}

/-- Only the fields about the string, the text and the event matter; position, depth and code may
change. -/
theorem Ready.frame (h : Ready q) (hsetting : q'.setting = q.setting) (hevent : q'.event = q.event)
    (htext : q'.text = q.text) (hstring : q'.string = q.string)
    (hlen : q'.stringLen = q.stringLen) (hmax : q'.stringMax = q.stringMax) : Ready q' := by
  obtain ⟨s, hs, hsettled, hnumber⟩ := h
  refine ⟨s, hsetting.trans hs, ?_, hevent ▸ hnumber⟩
  have hvalue : q'.textValue = q.textValue := by rw [ParserState.textValue, htext]; rfl
  constructor
  · rw [hstring, hmax]
    exact hsettled.size
  · rw [hlen, hvalue]
    exact hsettled.len
  · rw [hstring, hlen, hvalue]
    exact hsettled.value
  · rw [hstring, hlen]
    exact hsettled.terminated

/-- The depth has nothing to do with the block. -/
theorem Ready.withDepth (h : Ready q) (depth : Nat) :
    Ready { q with toParserState := { q.toParserState with depth := depth } } :=
  h.frame rfl rfl rfl rfl rfl rfl

/-- Between two calls the block is as long as it is recorded. -/
theorem Ready.sized (h : Ready q) : Sized q.toParserState := by
  obtain ⟨s, -, hsettled, -⟩ := h
  exact hsettled.sized

/-- `set_event` with the token of the lexer: the parser with blocks does what the parser of the
model does. -/
theorem setEvent_tracks (h : Sized q.toParserState) (token : Token)
    (he : e.isNumber = true → token = .number ∨ token = .integer) :
    Tracks (q.setEvent ts token e) (q.toParser.setEvent ts token e) := by
  obtain ⟨hcall, hsettled⟩ := setEvent_settled h token e (q.tokenText ts)
  refine ⟨_, by rw [setEvent, hcall, Option.map_some], rfl, .event token, rfl, hsettled, ?_⟩
  intro hnumber
  rw [ParserState.setEvent_event] at hnumber
  rcases he hnumber with rfl | rfl <;> rfl

/-- So does `signal_error`. -/
theorem signalError_tracks (h : Sized q.toParserState) (token : Token) (pos : Nat × Nat) :
    Tracks (q.signalError ts token pos) (q.toParser.signalError ts token pos) := by
  obtain ⟨hcall, hsettled⟩ := signalError_settled h token pos.1 pos.2 (q.tokenText ts)
  exact ⟨_, by rw [signalError, hcall, Option.map_some], rfl, .error, rfl, hsettled, fun _ => rfl⟩

/-- What is changed apart from the block does not matter to it. -/
theorem Tracks.update (h : Tracks call p) (hf : ∀ {q : Tracked τ}, Ready q → Ready (q.update f)) :
    Tracks (call.map (Tracked.update f)) (p.update f) := by
  obtain ⟨q, rfl, rfl, hready⟩ := h
  exact ⟨q.update f, rfl, rfl, hf hready⟩

/-- A call made under a condition. -/
theorem Tracks.ifThen (h : Tracks call p) (c : Prop) [Decidable c] (p' : Parser τ)
    (hp : { p' with toParserState := p.toParserState } = p) :
    TracksTry (if c then call.map some else some none)
      ((if c then some p.toParserState else none).map fun st =>
        { p' with toParserState := st }) := by
  obtain ⟨q, rfl, rfl, hready⟩ := h
  split
  · exact .inl ⟨q, rfl, congrArg some hp, hready⟩
  · exact .inr ⟨rfl, rfl⟩

/-- The start of a table, which is an event and one more open table. -/
theorem tableStart_tracks (h : Sized q.toParserState) (token : Token) :
    Tracks ((q.setEvent ts token .tableStart).map (Tracked.update .push))
      ((q.toParser.setEvent ts token .tableStart).update .push) :=
  (setEvent_tracks h token fun he => by cases he).update fun {q} hready =>
    hready.withDepth (ParserState.deeper q.depth)

/-- `expect_table_start`, whose two outcomes are the two of the model. -/
theorem expectTableStart_tracks (ts : TokenSource τ) (h : Sized q.toParserState) (token : Token) :
    TracksTry (q.expectTableStart ts token)
      (q.toParser.tryState ts (ParserState.expectTableStart token)) :=
  (tableStart_tracks h token).ifThen (token = .curlyOpen) q.toParser rfl

/-- `expect_value`: a table, a scalar or nothing, as the model has it. -/
theorem expectValue_tracks (ts : TokenSource τ) (h : Sized q.toParserState) (token : Token) :
    TracksTry (q.expectValue ts token)
      (q.toParser.tryState ts (ParserState.expectValue token)) := by
  rw [expectValue, Parser.tryState, ParserState.expectValue]
  cases hscalar : ParserState.scalarEvent token with
  | none => exact expectTableStart_tracks ts h token
  | some e =>
    obtain ⟨q', hcall, heq, hready⟩ : Tracks (q.setEvent ts token e) _ :=
      setEvent_tracks h token (ParserState.scalarEvent_isNumber hscalar)
    refine .inl ⟨q', ?_, ?_, hready⟩
    · dsimp only
      rw [hcall, Option.map_some]
    · rw [heq]
      rfl

/-- The end of a table, which is an event and one open table less. -/
theorem tableEnd_tracks (h : Sized q.toParserState) (token : Token) :
    Tracks ((q.setEvent ts token .tableEnd).map (Tracked.update .pop))
      ((q.toParser.setEvent ts token .tableEnd).update .pop) :=
  (setEvent_tracks h token fun he => by cases he).update fun {q} hready =>
    hready.withDepth (ParserState.shallower q.depth)

/-- `expect_table_end`, likewise. -/
theorem expectTableEnd_tracks (h : Sized q.toParserState) (token : Token) :
    TracksTry (q.expectTableEnd ts token)
      (q.toParser.tryState ts (ParserState.expectTableEnd token)) :=
  (tableEnd_tracks h token).ifThen (token = .curlyClose ∧ q.depth > 0) q.toParser rfl

/-- `expect_stream_end`, likewise. -/
theorem expectStreamEnd_tracks (h : Sized q.toParserState) (token : Token) :
    TracksTry (q.expectStreamEnd ts token)
      (q.toParser.tryState ts (ParserState.expectStreamEnd token)) := by
  have hset : Tracks (q.setEvent ts token .streamEnd) _ :=
    setEvent_tracks h token fun he => by cases he
  exact hset.ifThen (token = .eof) q.toParser rfl

/-- What comes instead when nothing was expected. -/
theorem TracksTry.orElse {expected : Option (Option (Tracked τ))} {result : Option (Parser τ)}
    (h : TracksTry expected result) (hother : Tracks other p) :
    Tracks (Tracked.orElse expected other) (result.getD p) := by
  rcases h with ⟨q, rfl, rfl, hready⟩ | ⟨rfl, rfl⟩
  · exact ⟨q, rfl, rfl, hready⟩
  · exact hother

/-- A call of `expect_new_entry` or `expect_new_definition`: when it is `false` the string was not
touched. -/
def TracksEntry {τ : Type} (call : Option (Bool × (Nat × Nat) × Tracked τ))
    (result : Bool × (Nat × Nat) × Parser τ) : Prop :=
  ∃ q, call = some (result.1, result.2.1, q) ∧ q.toParser = result.2.2 ∧ Sized q.toParserState ∧
    (result.1 = true → Ready q)

/-- A call that was made hands on its token with its position. -/
theorem Tracks.entry (h : Tracks call p) (pos : Nat × Nat) :
    TracksEntry (call.map fun self => (true, pos, self)) (true, pos, p) := by
  obtain ⟨q, rfl, rfl, hready⟩ := h
  exact ⟨q, rfl, rfl, hready.sized, fun _ => hready⟩

/-- Reading a token changes the lexer only. -/
theorem nextToken_eq (q : Tracked τ) : q.toParser.nextToken ts =
    ((q.nextToken ts).1, (q.nextToken ts).2.toParser) := rfl

/-- To read a token leaves the block of the string alone. -/
theorem nextToken_sized (ts : TokenSource τ) (h : Sized q.toParserState) :
    Sized (q.nextToken ts).2.toParserState := h

/-- So it leaves what holds between two calls. -/
theorem nextToken_ready (ts : TokenSource τ) (h : Ready q) : Ready (q.nextToken ts).2 :=
  h.frame rfl rfl rfl rfl rfl rfl

/-- `expect_new_entry`: a name, a key in brackets, a value or an error, each as the model has it.
The tokens read on the way leave the block alone. By the branches of the source; each is a call of
`set_event`, of `expect_value` or of `signal_error`, which keep track of the block. -/
theorem expectNewEntry_tracks (ts : TokenSource τ) (h : Sized q.toParserState) (token : Token)
    (pos : Nat × Nat) :
    TracksEntry (q.expectNewEntry ts token pos) (q.toParser.expectNewEntry ts token pos) := by
  rw [expectNewEntry, Parser.expectNewEntry]
  split
  · have hset : Tracks (q.setEvent ts token .keyString) _ :=
      setEvent_tracks h token fun he => by cases he
    exact hset.entry pos
  split
  · rw [nextToken_eq]
    dsimp only
    have hkeyed := nextToken_sized ts h
    generalize q.nextToken ts = key at hkeyed ⊢
    cases hkey : ParserState.keyEvent key.1.1 with
    | none => exact ⟨key.2, rfl, rfl, hkeyed, fun h => by cases h⟩
    | some e =>
      obtain ⟨q', hcall, heq, hready⟩ : Tracks (key.2.setEvent ts key.1.1 e) _ :=
        setEvent_tracks hkeyed key.1.1 (ParserState.keyEvent_isNumber hkey)
      have hclose := nextToken_ready ts hready
      dsimp only
      rw [hcall, Option.bind_eq_bind, Option.bind_some, ← heq, nextToken_eq]
      dsimp only
      generalize q'.nextToken ts = close at hclose ⊢
      split
      · exact (signalError_tracks hclose.sized close.1.1 close.1.2).entry close.1.2
      · exact ⟨close.2, rfl, rfl, hclose.sized, fun _ => hclose⟩
  · rcases expectValue_tracks ts h token with ⟨q', hcall, hresult, hready⟩ |
      ⟨hcall, hresult⟩
    · rw [hcall, hresult]
      exact ⟨q', rfl, rfl, hready.sized, fun _ => hready⟩
    · rw [hcall, hresult]
      exact ⟨q, rfl, rfl, h, fun h => by cases h⟩

/-- So does the loop of `expect_new_definition`. -/
theorem skipSemicolons_state (ts : TokenSource τ) (fuel : Nat) (token : Token) (pos : Nat × Nat)
    (p : Parser τ) :
    (Parser.skipSemicolons ts fuel token pos p).2.toParserState = p.toParserState := by
  induction fuel generalizing token pos p with
  | zero => rfl
  | succ fuel ih =>
    rw [Parser.skipSemicolons]
    split
    · exact ih _ _ _
    · rfl

/-- `expect_new_definition`, which skips semicolons first, sets the string to the name. -/
theorem expectNewDefinition_tracks (ts : TokenSource τ) (h : Sized q.toParserState)
    (token : Token) (pos : Nat × Nat) :
    TracksEntry (q.expectNewDefinition ts token pos)
      (q.toParser.expectNewDefinition ts token pos) := by
  have hstate := skipSemicolons_state ts (ts.limit q.lexer + 1) token pos q.toParser
  rw [expectNewDefinition, Parser.expectNewDefinition]
  dsimp only
  generalize Parser.skipSemicolons ts (ts.limit q.lexer + 1) token pos q.toParser = read at hstate ⊢
  have hsized : Sized ({ q with toParser := read.2 } : Tracked τ).toParserState := hstate ▸ h
  split
  · have hset : Tracks (setEvent ts read.1.1 .defName { q with toParser := read.2 }) _ :=
      setEvent_tracks hsized read.1.1 fun he => by cases he
    exact hset.entry read.1.2
  · exact ⟨_, rfl, rfl, hsized, fun h => by cases h⟩

/-- The call of `ELTN_Parser_next` where a definition may stand. -/
theorem nextDefinition_tracks (h : Sized q.toParserState) (token : Token) (pos : Nat × Nat) :
    Tracks (q.nextDefinition ts token pos) (q.toParser.nextDefinition ts token pos) := by
  obtain ⟨q', hcall, heq, hsized, hready⟩ := expectNewDefinition_tracks ts h token pos
  rw [nextDefinition, Parser.nextDefinition, hcall, Option.bind_some]
  dsimp only
  split
  · next htrue => exact ⟨q', rfl, heq, hready htrue⟩
  · rw [← heq]
    exact (expectStreamEnd_tracks hsized token).orElse (signalError_tracks hsized token _)

/-- The call of `ELTN_Parser_next` where an entry may stand. -/
theorem nextEntry_tracks (h : Sized q.toParserState) (token : Token) (pos : Nat × Nat) :
    Tracks (q.nextEntry ts token pos) (q.toParser.nextEntry ts token pos) := by
  obtain ⟨q', hcall, heq, hsized, hready⟩ := expectNewEntry_tracks ts h token pos
  rw [nextEntry, Parser.nextEntry, hcall, Option.bind_some]
  dsimp only
  split
  · next htrue => exact ⟨q', rfl, heq, hready htrue⟩
  · rw [← heq]
    exact (expectTableEnd_tracks hsized token).orElse (signalError_tracks hsized token _)

/-- The call of `ELTN_Parser_next` behind a key. -/
theorem nextValue_tracks (h : Sized q.toParserState) (token : Token) (pos : Nat × Nat) :
    Tracks (q.nextValue ts token pos) (q.toParser.nextValue ts token pos) := by
  have hread := nextToken_sized ts h
  rw [nextValue, Parser.nextValue]
  split
  · exact signalError_tracks h token pos
  · exact (expectValue_tracks ts hread _).orElse (signalError_tracks hread _ _)

/-- The call of `ELTN_Parser_next` behind a value, inside of a table or outside of all. -/
theorem nextAfterValue_tracks (h : Sized q.toParserState) (token : Token) (pos : Nat × Nat) :
    Tracks (q.nextAfterValue ts token pos) (q.toParser.nextAfterValue ts token pos) := by
  rw [nextAfterValue, Parser.nextAfterValue]
  split
  · split
    · exact nextDefinition_tracks h token pos
    · exact (expectStreamEnd_tracks h token).orElse (signalError_tracks h token pos)
  split
  · exact nextEntry_tracks (nextToken_sized ts h) _ _
  · exact (expectTableEnd_tracks h token).orElse (signalError_tracks h token pos)

/-- A table at the start of the input, or else a definition, sets the string in its block. -/
theorem nextFirst_tracks (h : Sized q.toParserState) (token : Token) (pos : Nat × Nat) :
    Tracks (q.nextFirst ts token pos)
      (((q.toParser.tryState ts (ParserState.expectTableStart token)).map fun p =>
        p.update fun s => { s with noDefs := true }).getD
          (q.toParser.nextDefinition ts token pos)) := by
  rw [nextFirst]
  rcases expectTableStart_tracks ts h token with ⟨q', hcall, hresult, hready⟩ |
    ⟨hcall, hresult⟩
  · rw [hcall, hresult]
    exact ⟨q'.update fun s => { s with noDefs := true }, rfl, rfl,
      hready.frame rfl rfl rfl rfl rfl rfl⟩
  · rw [hcall, hresult]
    exact nextDefinition_tracks h token pos

/-- **One call** does on the tracked parser what it does in the model, and leaves it ready for the
next. Before the first one there is no string. The last event chooses the handler, and each handler
has its own lemma. -/
theorem next_tracks (h : Ready q ∨ q.event = .streamStart ∧ q.string = none) :
    Tracks (q.next ts) (q.toParser.next ts) := by
  have hsized : Sized q.toParserState := by
    rcases h with h | ⟨-, hnone⟩
    · exact h.sized
    · intro block hblock
      rw [hnone] at hblock
      cases hblock
  obtain ⟨q', hq, hp, hsized', hready'⟩ : ∃ q' : Tracked τ,
      (if q.event ≠ .comment then q.update fun s => { s with lastEvent := s.event } else q) = q' ∧
        (if q.event ≠ .comment then q.toParser.update fun s => { s with lastEvent := s.event }
          else q.toParser) = q'.toParser ∧
        Sized q'.toParserState ∧ (q'.lastEvent = .streamStart ∨ Ready q') := by
    refine ⟨_, rfl, ?_, ?_, ?_⟩
    · split <;> rfl
    · split <;> exact hsized
    · rcases h with h | ⟨hstart, -⟩
      · refine .inr ?_
        split
        · exact h.frame rfl rfl rfl rfl rfl rfl
        · exact h
      · have hne : q.event ≠ .comment := by
          rw [hstart]
          exact fun h => by cases h
        rw [if_pos hne]
        exact .inl hstart
  rw [next, Parser.next, hq, hp, nextToken_eq]
  dsimp only
  have hsized'' := nextToken_sized ts hsized'
  have hready'' : (q'.nextToken ts).2.lastEvent = .streamStart ∨ Ready (q'.nextToken ts).2 :=
    hready'.imp id (nextToken_ready ts)
  generalize q'.nextToken ts = read at hsized'' hready'' ⊢
  cases hlast : read.2.lastEvent with
  | streamStart => exact nextFirst_tracks hsized'' _ _
  | tableStart => exact nextEntry_tracks hsized'' _ _
  | comment | streamEnd | error =>
    rw [hlast] at hready''
    exact ⟨read.2, rfl, rfl, hready''.resolve_left fun h => by cases h⟩
  | defName | keyString | keyNumber | keyInteger => exact nextValue_tracks hsized'' _ _
  | tableEnd | valueString | valueNumber | valueInteger | valueTrue | valueFalse | valueNil =>
    exact nextAfterValue_tracks hsized'' _ _

/-- Any number of calls of a new parser stay in their blocks, from the first call on. -/
theorem after_tracks (ts : TokenSource τ) (lexer : τ) (n : Nat) :
    Tracks (after ts lexer (n + 1)) ((Parser.new lexer).after ts (n + 1)) := by
  induction n with
  | zero => exact next_tracks (q := { toParser := Parser.new lexer }) (.inr ⟨rfl, rfl⟩)
  | succ n ih =>
    obtain ⟨q, hcall, heq, hready⟩ := ih
    have hnext : (Parser.new lexer).after ts (n + 1 + 1) = q.toParser.next ts := by
      rw [heq]
      exact Function.iterate_succ_apply' _ _ _
    rw [after, hcall, Option.bind_some, hnext]
    exact next_tracks (.inl hready)

end

end Tracked

/-- **The block behind the string.** Every call of `ELTN_Parser_next` stays in it, and from the
first one on it holds the value of the event alone. Where the event is a number, `strtod` and
`strtol` find the end of the string in it. -/
theorem after_block {τ : Type} (ts : TokenSource τ) (lexer : τ) (n : Nat) : ∃ q,
    Tracked.after ts lexer n = some q ∧ q.toParser = (Parser.new lexer).after ts n ∧
      q.stringMax ≤ (q.string.getD []).length ∧
      (n = 0 ∨ ∃ s, q.setting = some s ∧ Settled s q.toParserState) ∧
      (q.event.isNumber = true → cstring (q.string.getD []) = some (q.string.getD [])) := by
  rcases n with _ | n
  · exact ⟨_, rfl, rfl, Nat.zero_le _, .inl rfl, fun h => by cases h⟩
  obtain ⟨q, hcall, heq, s, hsetting, hsettled, hnumber⟩ := Tracked.after_tracks ts lexer n
  refine ⟨q, hcall, heq, hsettled.size, .inr ⟨s, hsetting, hsettled⟩, fun h => ?_⟩
  have hzero : 0 ∈ q.string.getD [] := List.mem_of_getElem? (hsettled.terminated (hnumber h))
  rw [cstring, if_pos hzero]

end Guarded

end Eltn
