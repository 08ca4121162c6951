import Eltn.Parser.Tokens

/-!
# The parser

`eparser.c` over any source of tokens. Allocations succeed. `ParserState` holds the fields of
`struct ELTN_Parser` but for the lexer: the text with its length is the list of its bytes, the
string is the block that was allocated for it, next to the length and the size that are recorded.
A function that changes the line and the column through pointers returns them.
-/

namespace Eltn

/-- `ELTN_Event` (`eltn.h:149`), in the order of the source. -/
inductive Event where
  | error | streamStart | comment | defName | keyString | keyNumber | keyInteger | valueString
  | valueNumber | valueInteger | valueTrue | valueFalse | valueNil | tableStart | tableEnd
  | streamEnd
deriving DecidableEq, Repr

/-- `ELTN_Error` (`eltn.h:194`), in the order of the source. `signal_error` sets four of them, and a
call that finds no memory a fifth. -/
inductive Error where
  | unknown | ok | outOfMemory | streamEnd | unexpectedToken | invalidToken | duplicateKey
deriving DecidableEq, Repr

/-- `struct ELTN_Parser` (`eparser.c:54`) without its lexer and buffer. `lastEvent` is the event of
the call before, `noDefs` says that the document is a single table, and the last three fields are
the report of an error. -/
structure ParserState where
  lastEvent : Event := .streamStart
  event : Event := .streamStart
  text : Option Bytes := none
  string : Option Bytes := none
  stringLen : Nat := 0
  stringMax : Nat := 0
  depth : Nat := 0
  noDefs : Bool := false
  errcode : Error := .ok
  errline : Nat := 0
  errcolumn : Nat := 0
deriving DecidableEq, Repr

namespace ParserState

/-- `set_string_ref` (`eparser.c:272`): the parser takes over a block that holds the string, and
records its length as its size. -/
def setStringRef (block : Bytes) (len : Nat) (self : ParserState) : ParserState :=
  { self with string := some block, stringLen := len, stringMax := len }

/-- `set_string_copy` (`eparser.c:282`): the block is allocated anew where it is missing or not
longer than the string, then cleared up to the recorded size, and the string copied to its front. -/
def setStringCopy (str : Bytes) (self : ParserState) : ParserState :=
  let len := str.length
  let self :=
    if self.string = none ∨ self.stringMax ≤ len then
      { self with
        string := some (List.replicate (len + 1) 0), stringLen := len, stringMax := len + 1 }
    else self
  let block := self.string.getD []
  let cleared := List.replicate self.stringMax 0 ++ block.drop self.stringMax
  { self with string := some (str ++ cleared.drop len), stringLen := len }

/-- `capture_token_buffer` (`eparser.c:302`): the text of the token, which `ELTN_Parser_text` gives.
-/
def captureTokenBuffer (token : Bytes) (self : ParserState) : ParserState :=
  { self with text := some token }

/-- `set_event` (`eparser.c:312`), `text` being the text of the token in the lexer. The string is
what a quoted string stands for, the text of a long string or a comment as it is, and a copy of the
text of every other token. -/
def setEvent (token : Token) (event : Event) (text : Bytes) (self : ParserState) : ParserState :=
  let self := { self with event := event }.captureTokenBuffer text
  match token with
  | .string =>
    let str := (unescapeQuotedString text).2
    self.setStringRef (str ++ List.replicate (text.length - str.length) 0) str.length
  | .longString => self.setStringRef (unquoteLongString text ++ [0]) (unquoteLongString text).length
  | .comment => self.setStringRef (trimComment text ++ [0]) (trimComment text).length
  | .longComment => self.setStringRef (trimComment text ++ [0]) (trimComment text).length
  | _ => self.setStringCopy text

/-- The error code that `signal_error` gives for a token: one of its own for invalid tokens, the end
of the input and errors of the lexer, else an unexpected token. -/
def errorCode (token : Token) : Error :=
  if token = .invalid then .invalidToken
  else if token = .eof then .streamEnd
  else if token = .error then .unknown
  else .unexpectedToken

/-- `signal_error` (`eparser.c:355`): the event is an error, text and string are those of the token
in the lexer, and position and code are the ones reported for it. -/
def signalError (token : Token) (line column : Nat) (text : Bytes) (self : ParserState) :
    ParserState :=
  let self := ({ self with event := .error }.captureTokenBuffer text).setStringCopy text
  { self with errline := line, errcolumn := column, errcode := errorCode token }

/-- `depth++`, on an `unsigned int`. -/
def deeper (depth : Nat) : Nat := (depth + 1) % 2 ^ 32

/-- `depth--`, on an `unsigned int`. -/
def shallower (depth : Nat) : Nat := (depth + (2 ^ 32 - 1)) % 2 ^ 32

/-- `self->depth++`. -/
def push (self : ParserState) : ParserState := { self with depth := deeper self.depth }

/-- `self->depth--`. -/
def pop (self : ParserState) : ParserState := { self with depth := shallower self.depth }

/-- The scalar values of `expect_value`: the event for a token that is a value of its own. -/
def scalarEvent (token : Token) : Option Event :=
  match token with
  | .string => some .valueString
  | .longString => some .valueString
  | .number => some .valueNumber
  | .integer => some .valueInteger
  | .booleanTrue => some .valueTrue
  | .booleanFalse => some .valueFalse
  | .nil => some .valueNil
  | _ => none

/-- `expect_value` (`eparser.c:394`): a scalar or the start of a table, which is one deeper; `none`
is `false`, which changes nothing. -/
def expectValue (token : Token) (text : Bytes) (self : ParserState) : Option ParserState :=
  match scalarEvent token with
  | some e => some (self.setEvent token e text)
  | none => if token = .curlyOpen then some (self.setEvent token .tableStart text).push else none

/-- `expect_table_start` (`eparser.c:474`): an opening brace, behind which the depth is one more. -/
def expectTableStart (token : Token) (text : Bytes) (self : ParserState) : Option ParserState :=
  if token = .curlyOpen then some (self.setEvent token .tableStart text).push else none

/-- `expect_table_end` (`eparser.c:484`): a closing brace inside a table, behind which the depth is
one less. -/
def expectTableEnd (token : Token) (text : Bytes) (self : ParserState) : Option ParserState :=
  if token = .curlyClose ∧ self.depth > 0 then some (self.setEvent token .tableEnd text).pop
  else none

/-- `expect_stream_end` (`eparser.c:510`): the token at the end of the input. -/
def expectStreamEnd (token : Token) (text : Bytes) (self : ParserState) : Option ParserState :=
  if token = .eof then some (self.setEvent token .streamEnd text) else none

/-- The keys between brackets of `expect_new_entry`: strings in quotes or long brackets, and
numbers. -/
def keyEvent (token : Token) : Option Event :=
  match token with
  | .string => some .keyString
  | .number => some .keyNumber
  | .integer => some .keyInteger
  | .longString => some .keyString
  | _ => none

/-- `ELTN_Parser_string` (`eparser.c:194`): as many bytes of the string's block as its length says.
-/
def stringValue (self : ParserState) : Bytes := (self.string.getD []).take self.stringLen

/-- `ELTN_Parser_text` (`eparser.c:180`), which is empty before the first token. -/
def textValue (self : ParserState) : Bytes := self.text.getD []

/-- `ELTN_Parser_has_next` (`eparser.c:156`): neither the end of the stream nor an error was
reported. -/
def hasNext (self : ParserState) : Bool := self.event ≠ .streamEnd && self.event ≠ .error

end ParserState

/-- `struct ELTN_Parser` (`eparser.c:54`). The lexer, with the buffer behind it, is a source of
tokens. -/
structure Parser (τ : Type) extends ParserState where
  lexer : τ

namespace Parser

variable {τ : Type} (ts : TokenSource τ)

/-- A new parser on a source, on which nothing was called: the start of the stream, without text or
error. -/
def new (lexer : τ) : Parser τ := { lexer := lexer }

/-- A change of the fields other than the lexer, which stays where it is in its input. -/
def update (self : Parser τ) (f : ParserState → ParserState) : Parser τ :=
  { self with toParserState := f self.toParserState }

/-- The text of the token in the lexer, `ELTN_Lexer_token_string`. -/
def tokenText (self : Parser τ) : Bytes := ts.tokenString self.lexer

/-- The loop of `next_token` (`eparser.c:376`): the first token that is no comment, with its
position. -/
def skipComments : Nat → τ → (Token × Nat × Nat) × τ
  | 0, lexer => ts.nextToken lexer
  | fuel + 1, lexer =>
    let read := ts.nextToken lexer
    if read.1.1 = .comment ∨ read.1.1 = .longComment then skipComments fuel read.2 else read

/-- `next_token` (`eparser.c:376`): the next token that is no comment, its position, and the parser
behind it. -/
def nextToken (self : Parser τ) : (Token × Nat × Nat) × Parser τ :=
  let read := skipComments ts (ts.limit self.lexer) self.lexer
  (read.1, { self with lexer := read.2 })

/-- One of the `expect_*` functions that read nothing, on the token in the lexer. -/
def tryState (f : Bytes → ParserState → Option ParserState) (self : Parser τ) :
    Option (Parser τ) :=
  (f (self.tokenText ts) self.toParserState).map fun s => { self with toParserState := s }

/-- `signal_error` (`eparser.c:355`) on the token in the lexer. -/
def signalError (token : Token) (pos : Nat × Nat) (self : Parser τ) : Parser τ :=
  self.update (·.signalError token pos.1 pos.2 (self.tokenText ts))

/-- `set_event` (`eparser.c:312`) on the token in the lexer. -/
def setEvent (token : Token) (event : Event) (self : Parser τ) : Parser τ :=
  self.update (·.setEvent token event (self.tokenText ts))

/-- `expect_new_entry` (`eparser.c:428`): the result, the position and the parser. A name is a key,
a bracket opens one that the next token gives, and anything else must be a value. The event of a key
in brackets is set before its closing bracket is read, and an error there is signalled here. -/
def expectNewEntry (token : Token) (pos : Nat × Nat) (self : Parser τ) :
    Bool × (Nat × Nat) × Parser τ :=
  if token = .name then (true, pos, self.setEvent ts token .keyString)
  else if token = .squareOpen then
    let key := self.nextToken ts
    match ParserState.keyEvent key.1.1 with
    | none => (false, key.1.2, key.2)
    | some e =>
      let close := (key.2.setEvent ts key.1.1 e).nextToken ts
      if close.1.1 ≠ .squareClose then
        (true, close.1.2, close.2.signalError ts close.1.1 close.1.2)
      else (true, close.1.2, close.2)
  else match self.tryState ts (ParserState.expectValue token) with
  | some self => (true, pos, self)
  | none => (false, pos, self)

/-- The loop of `expect_new_definition` (`eparser.c:494`): the first token that is no semicolon,
with its position, when the token read last was `token`. -/
def skipSemicolons : Nat → Token → Nat × Nat → Parser τ → (Token × Nat × Nat) × Parser τ
  | 0, token, pos, self => ((token, pos), self)
  | fuel + 1, token, pos, self =>
    if token = .semicolon then
      let read := self.nextToken ts
      skipSemicolons fuel read.1.1 read.1.2 read.2
    else ((token, pos), self)

/-- `expect_new_definition` (`eparser.c:494`): behind any semicolons a name must follow. The
position goes back to the caller, which keeps its own token. -/
def expectNewDefinition (token : Token) (pos : Nat × Nat) (self : Parser τ) :
    Bool × (Nat × Nat) × Parser τ :=
  let read := skipSemicolons ts (ts.limit self.lexer + 1) token pos self
  if read.1.1 = .name then (true, read.1.2, read.2.setEvent ts read.1.1 .defName)
  else (false, read.1.2, read.2)

/-- The cases of `ELTN_Parser_next` that expect a definition or the end of the input. The end is
looked for in the caller's token, the first behind the value, also where semicolons were skipped. -/
def nextDefinition (token : Token) (pos : Nat × Nat) (self : Parser τ) : Parser τ :=
  let definition := self.expectNewDefinition ts token pos
  if definition.1 then definition.2.2
  else (definition.2.2.tryState ts (ParserState.expectStreamEnd token)).getD
    (definition.2.2.signalError ts token definition.2.1)

/-- The cases of `ELTN_Parser_next` that expect an entry or the end of a table. The end is looked
for in the caller's token, also where a bracket was read past it. -/
def nextEntry (token : Token) (pos : Nat × Nat) (self : Parser τ) : Parser τ :=
  let entry := self.expectNewEntry ts token pos
  if entry.1 then entry.2.2
  else (entry.2.2.tryState ts (ParserState.expectTableEnd token)).getD
    (entry.2.2.signalError ts token entry.2.1)

/-- The cases of `ELTN_Parser_next` that expect an equals sign and a value, behind the name of a
definition or a key. -/
def nextValue (token : Token) (pos : Nat × Nat) (self : Parser τ) : Parser τ :=
  if token ≠ .equals then self.signalError ts token pos
  else
    let read := self.nextToken ts
    (read.2.tryState ts (ParserState.expectValue read.1.1)).getD
      (read.2.signalError ts read.1.1 read.1.2)

/-- The cases of `ELTN_Parser_next` behind a value: outside of tables a definition or the end of the
input, and only the end where the document is a single table; inside one a comma or a semicolon and
an entry, or the end of the table. -/
def nextAfterValue (token : Token) (pos : Nat × Nat) (self : Parser τ) : Parser τ :=
  if self.depth = 0 then
    if !self.noDefs then self.nextDefinition ts token pos
    else (self.tryState ts (ParserState.expectStreamEnd token)).getD (self.signalError ts token pos)
  else if token = .comma ∨ token = .semicolon then
    let read := self.nextToken ts
    read.2.nextEntry ts read.1.1 read.1.2
  else (self.tryState ts (ParserState.expectTableEnd token)).getD (self.signalError ts token pos)

/-- `ELTN_Parser_next` (`eparser.c:518`): the event of the last call decides what the tokens may be,
and behind the end of the stream or an error nothing changes but the lexer. No function sets
`ELTN_COMMENT`, so its case is never reached. -/
def next (self : Parser τ) : Parser τ :=
  let self :=
    if self.event ≠ .comment then self.update fun s => { s with lastEvent := s.event } else self
  let read := self.nextToken ts
  let token := read.1.1
  let pos := read.1.2
  let self := read.2
  match self.lastEvent with
  | .streamStart =>
    ((self.tryState ts (ParserState.expectTableStart token)).map fun self =>
      self.update fun s => { s with noDefs := true }).getD (self.nextDefinition ts token pos)
  | .comment => self
  | .defName => self.nextValue ts token pos
  | .keyString => self.nextValue ts token pos
  | .keyNumber => self.nextValue ts token pos
  | .keyInteger => self.nextValue ts token pos
  | .tableEnd => self.nextAfterValue ts token pos
  | .valueString => self.nextAfterValue ts token pos
  | .valueNumber => self.nextAfterValue ts token pos
  | .valueInteger => self.nextAfterValue ts token pos
  | .valueTrue => self.nextAfterValue ts token pos
  | .valueFalse => self.nextAfterValue ts token pos
  | .valueNil => self.nextAfterValue ts token pos
  | .tableStart => self.nextEntry ts token pos
  | .streamEnd => self
  | .error => self

/-- The parser after `n` calls of `ELTN_Parser_next`. -/
def after (self : Parser τ) (n : Nat) : Parser τ := (next ts)^[n] self

end Parser

end Eltn
