import Eltn.EString

/-!
# The lexer

The lexer of `elexer.c` over any character source. The token buffer is the list of the bytes of the
token so far; next to it stand the size the lexer has recorded and the size of the block it got
last. Allocations succeed. `int` counters are kept as their 32-bit words, and `-1` from a character
source is `none`.

Every loop of the source takes a bound on its turns as its first argument, for which the callers
pass more than the number of bytes left (`Lexer.limit`).
-/

namespace Eltn

/-- `ELTN_Token` (`elexer.h:32`), in the order of the source. The lexer returns no integer and no
error: a number of any kind is a number. -/
inductive Token where
  | error | invalid | curlyOpen | curlyClose | squareOpen | squareClose | semicolon | comma
  | equals | name | string | longString | number | integer | booleanTrue | booleanFalse | nil
  | comment | longComment | eof
deriving DecidableEq, Repr

/-- A character source (`ELTN_Char_Source` and its state): reading with `consume` true delivers
the finitely many `bytes` in order and then `-1` for good. The laws hold of the states that are
`Ok`, and reading keeps a state `Ok`. -/
structure CharSource (σ : Type) where
  nextChar : σ → Option UInt8 × σ
  bytes : σ → Bytes
  Ok : σ → Prop
  nextChar_fst : ∀ {s}, Ok s → (nextChar s).1 = (bytes s).head?
  bytes_nextChar : ∀ {s}, Ok s → bytes (nextChar s).2 = (bytes s).tail
  ok_nextChar : ∀ {s}, Ok s → Ok (nextChar s).2

/-- The source that holds its bytes in memory: reading takes the first byte off, and finds none in
the empty list. -/
def CharSource.ofBytes : CharSource Bytes where
  nextChar s := (s.head?, s.tail)
  bytes s := s
  Ok _ := True
  nextChar_fst _ := rfl
  bytes_nextChar _ := rfl
  ok_nextChar _ := trivial

/-- `INIT_BUF_SIZE` of `elexer.c`. -/
def tokenBufSize : Nat := 1024

/-- `struct ELTN_Lexer` (`elexer.c:47`). `tokenBufferBlock` is the size of the block behind
`token_buffer`, and `tokenBufferRoom` tells whether all writes to the block so far were inside it.
-/
structure Lexer (σ : Type) where
  source : σ
  currentChar : UInt8 := 0
  count : Nat := 0
  line : Nat := 0
  column : Nat := 0
  tokenBuffer : Bytes := []
  tokenBufferSize : Nat := tokenBufSize
  tokenBufferBlock : Nat := tokenBufSize
  tokenBufferRoom : Bool := true
  pushback : Bool := false
  eos : Bool := false

namespace Lexer

variable {σ : Type} (cs : CharSource σ)

/-- More than the number of turns a loop can take. -/
def limit (self : Lexer σ) : Nat := (cs.bytes self.source).length + 2

/-- The position part of `get_next_char` (`elexer.c:105`): `last` is the character read before. The
first character stands at line 1 and column 1, one behind a line feed starts the next line, and
every other is one column on. -/
def advance (self : Lexer σ) (last : UInt8) : Lexer σ :=
  let count := (self.count + 1) % 2 ^ 32
  { self with
    count := count
    line :=
      if count = 1 then 1 else if last = 0x0A then (self.line + 1) % 2 ^ 32 else self.line
    column := if count = 1 ∨ last = 0x0A then 1 else (self.column + 1) % 2 ^ 32 }

/-- `get_next_char` (`elexer.c:105`): the character that was put back, if there is one, else the
next of the source with its position. At the end of input the last character stays in
`current_char`, and `eos` is set for good. -/
def getNextChar (self : Lexer σ) : Option UInt8 × Lexer σ :=
  if self.pushback then (some self.currentChar, { self with pushback := false })
  else if self.eos then (none, self)
  else
    let result := cs.nextChar self.source
    let self := { self.advance self.currentChar with source := result.2 }
    match result.1 with
    | none => (none, { self with eos := true })
    | some c => (some c, { self with currentChar := c })

/-! ## The token buffer -/

/-- `token_buffer_clear` (`elexer.c:140`): `memset` writes as many bytes as the recorded size, from
the front of the block on. -/
def tokenBufferClear (self : Lexer σ) : Lexer σ :=
  { self with
    tokenBuffer := []
    tokenBufferRoom := self.tokenBufferRoom && self.tokenBufferSize ≤ self.tokenBufferBlock }

/-- `token_buffer_append` (`elexer.c:146`). The block grows relative to the recorded size, which
stays as it is; then the byte is written behind the token and a terminator behind the byte. -/
def tokenBufferAppend (self : Lexer σ) (cp : Option UInt8) : Lexer σ :=
  match cp with
  | none => self
  | some c =>
    let toklen := self.tokenBuffer.length
    let block :=
      if toklen + 1 ≥ self.tokenBufferSize
      then self.tokenBufferSize + tokenBufSize else self.tokenBufferBlock
    { self with
      tokenBuffer := self.tokenBuffer ++ [c]
      tokenBufferBlock := block
      tokenBufferRoom := self.tokenBufferRoom && toklen < block && toklen + 1 < block }

/-- `token_buffer_equals` (`elexer.c:174`): the comparison stops at the length of the token. -/
def tokenBufferEquals (token : Bytes) (str : Bytes) : Bool := strncmpEq token str token.length

/-- `token_buffer_starts_with` (`elexer.c:180`): the comparison stops at the length of `str`. -/
def tokenBufferStartsWith (token : Bytes) (str : Bytes) : Bool := strncmpEq token str str.length

/-- `token_buffer_ends_with` (`elexer.c:186`). On a token shorter than `str` the source compares
bytes before the token buffer too; the one call where that happens compares `\z` with a lone quote,
which differ in their last byte whatever stands before it. -/
def tokenBufferEndsWith (token : Bytes) (str : Bytes) : Bool :=
  strncmpEq (token.drop (token.length - str.length)) str str.length

/-- `KEYWORDS`. -/
def keywords : List Bytes :=
  ["and", "break", "do", "else", "elseif", "end", "false", "for", "function", "goto", "if", "in",
    "local", "nil", "not", "or", "repeat", "return", "then", "true", "until", "while"].map ascii

/-- `token_buffer_is_keyword` (`elexer.c:200`): the token is one of the sorted `KEYWORDS`, among
which `bsearch` looks for it. -/
def tokenBufferIsKeyword (token : Bytes) : Bool := bsearch (strcmp token) keywords.length keywords

/-! ## Quoted strings -/

/-- The loop of `consume_until_matching_quote` (`elexer.c:209`): a carriage return is left out, a
bare line feed makes the token invalid unless a backslash or `\z` stands before it, and the quote
ends the string unless a backslash stands before it. `prev` is the last byte that was kept. -/
def consumeQuoteLoop (quote : UInt8) : Nat → UInt8 → Option UInt8 → Lexer σ → Token × Lexer σ
  | 0, _, _, self => (.invalid, self)
  | fuel + 1, prev, curr, self =>
    if self.eos then (.invalid, self)
    else if curr = some 0x0D then
      consumeQuoteLoop quote fuel prev (self.getNextChar cs).1 (self.getNextChar cs).2
    else if curr = some 0x0A ∧ prev ≠ 0x5C ∧
        !tokenBufferEndsWith self.tokenBuffer (ascii "\\z") then
      (.invalid, self)
    else
      let self := self.tokenBufferAppend curr
      if curr = some quote ∧ prev ≠ 0x5C then (.string, self)
      else
        consumeQuoteLoop quote fuel (curr.getD prev) (self.getNextChar cs).1 (self.getNextChar cs).2

/-- `consume_until_matching_quote` (`elexer.c:209`): the rest of a quoted string, behind the quote
that opened it. -/
def consumeUntilMatchingQuote (quote : UInt8) (self : Lexer σ) : Token × Lexer σ :=
  consumeQuoteLoop cs quote (self.limit cs) quote (self.getNextChar cs).1 (self.getNextChar cs).2

/-! ## Long brackets and comments -/

/-- The scan of `in_long_bracket` from after the prefix on, the terminator being the end of the
list: whether an opening bracket is complete, and the depth or `-1`. -/
def longBracketDepth : Bytes → Int → Bool × Int
  | [], _ => (false, -1)
  | c :: s, depth =>
    if c = 0x3D then longBracketDepth s (depth + 1)
    else if c = 0x5B then (true, depth)
    else (false, -1)

/-- `in_long_bracket` (`elexer.c:241`): whether the token has opened a long bracket behind `pre`,
and the new depth, which is `-1` where it never will. A token that does not end with a bracket
leaves the depth as it is. -/
def inLongBracket (token pre : Bytes) (depth : Int) : Bool × Int :=
  if 0 ≤ depth ∧ token.length > pre.length ∧ tokenBufferStartsWith token pre ∧
      tokenBufferEndsWith token (ascii "[") then
    if tokenBufferEndsWith token (ascii "[[") then (true, depth)
    else longBracketDepth (token.drop pre.length) depth
  else (false, depth)

/-- `token_buffer_ends_with_long_bracket` (`elexer.c:279`): the token ends with a closing bracket of
the depth, two brackets with as many equals signs between them. -/
def endsWithLongBracket (token : Bytes) (depth : Int) : Bool :=
  tokenBufferEndsWith token (ascii "]") &&
    tokenBufferEndsWith token (0x5D :: List.replicate depth.toNat 0x3D ++ [0x5D])

/-- The loop of `consume_until_end_of_comment` (`elexer.c:301`): a comment ends with its line, line
feed included, unless it has opened a long bracket, and then with the closing bracket of its depth.
At the end of the input a long comment is invalid. -/
def consumeCommentLoop : Nat → Option UInt8 → Bool → Int → Lexer σ → Token × Lexer σ
  | 0, _, isLong, _, self => (if isLong then .invalid else .comment, self)
  | fuel + 1, curr, isLong, depth, self =>
    if self.eos then (if isLong then .invalid else .comment, self)
    else
      let self := if curr = some 0x0D then self else self.tokenBufferAppend curr
      let start :=
        if isLong then (true, depth) else inLongBracket self.tokenBuffer (ascii "--[") depth
      if !start.1 ∧ curr = some 0x0A then (.comment, self)
      else if start.1 ∧ endsWithLongBracket self.tokenBuffer start.2 then (.longComment, self)
      else consumeCommentLoop fuel (self.getNextChar cs).1 start.1 start.2 (self.getNextChar cs).2

/-- `consume_until_end_of_comment` (`elexer.c:301`): the rest of a comment, behind its two dashes.
-/
def consumeUntilEndOfComment (self : Lexer σ) : Token × Lexer σ :=
  consumeCommentLoop cs (self.limit cs) (self.getNextChar cs).1 false 0 (self.getNextChar cs).2

/-- The loop of `parse_long_string` (`elexer.c:328`): the token ends with the closing bracket of its
depth. One that turns out not to open a long bracket is invalid, and ends with the character just
read. -/
def longStringLoop : Nat → Option UInt8 → Bool → Int → Lexer σ → Token × Lexer σ
  | 0, _, _, _, self => (.invalid, self)
  | fuel + 1, curr, pastOpen, depth, self =>
    if self.eos then (.invalid, self)
    else
      let self := if curr = some 0x0D then self else self.tokenBufferAppend curr
      let past :=
        if pastOpen then (true, depth) else inLongBracket self.tokenBuffer (ascii "[") depth
      if !past.1 ∧ (curr ≠ some 0x3D ∨ past.2 < 0) then (.invalid, self)
      else if past.1 ∧ endsWithLongBracket self.tokenBuffer past.2 then (.longString, self)
      else longStringLoop fuel (self.getNextChar cs).1 past.1 past.2 (self.getNextChar cs).2

/-- `parse_long_string` (`elexer.c:328`): the rest of a long string, the token buffer holding its
bracket and the byte behind. Whether that byte completes an opening bracket is decided before the
next is read. -/
def parseLongString (self : Lexer σ) : Token × Lexer σ :=
  let pastOpen := tokenBufferStartsWith self.tokenBuffer (ascii "[[")
  let pastClose := tokenBufferEndsWith self.tokenBuffer (ascii "]]")
  if pastClose then (.longString, (self.getNextChar cs).2)
  else longStringLoop cs (self.limit cs) (self.getNextChar cs).1 pastOpen 0 (self.getNextChar cs).2

/-! ## Numbers and names -/

/-- The loops of `parse_number` and of the name case, which append bytes of one class; the last
character read is put back. -/
def appendWhile (p : UInt8 → Bool) : Nat → Option UInt8 → Lexer σ → Lexer σ
  | 0, _, self => { self with pushback := true }
  | fuel + 1, curr, self =>
    if curr.any p then
      let self := self.tokenBufferAppend curr
      appendWhile p fuel (self.getNextChar cs).1 (self.getNextChar cs).2
    else { self with pushback := true }

/-- The verdict of `parse_number`: `strtod` reads the whole token as a finite value. -/
def numberToken (token : Bytes) : Token :=
  let r := strtod token
  if !r.1.isNaN ∧ !r.1.isInf ∧ r.2 = token.length then .number else .invalid

/-- `parse_number` (`elexer.c:351`): the longest run of number bytes behind what was read, as one
token. -/
def parseNumber (self : Lexer σ) : Token × Lexer σ :=
  let out :=
    appendWhile cs isNumberPart (self.limit cs) (self.getNextChar cs).1 (self.getNextChar cs).2
  (numberToken out.tokenBuffer, out)

/-- The classification of a name, as the source orders its comparisons: `true`, `false` and `nil` by
`token_buffer_equals`, then the keywords, then all other names. -/
def nameToken (token : Bytes) : Token :=
  if tokenBufferEquals token (ascii "true") then .booleanTrue
  else if tokenBufferEquals token (ascii "false") then .booleanFalse
  else if tokenBufferEquals token (ascii "nil") then .nil
  else if tokenBufferIsKeyword token then .invalid
  else .name

/-- The name case of `ELTN_Lexer_next_token`. Its loop also tests `eos`, where no character is
delivered. -/
def parseName (self : Lexer σ) : Token × Lexer σ :=
  let out :=
    appendWhile cs isNamePart (self.limit cs) (self.getNextChar cs).1 (self.getNextChar cs).2
  (nameToken out.tokenBuffer, out)

/-! ## The next token -/

/-- The tokens of one byte, all but the opening bracket, which may start a long string. -/
def punctuation (c : UInt8) : Option Token :=
  if c = 0x5D then some .squareClose
  else if c = 0x7B then some .curlyOpen
  else if c = 0x7D then some .curlyClose
  else if c = 0x3D then some .equals
  else if c = 0x2C then some .comma
  else if c = 0x3B then some .semicolon
  else none

/-- The `switch` of `ELTN_Lexer_next_token` (`elexer.c:374`) on the first byte of the token, which
the token buffer holds already. -/
def readToken (c : UInt8) (self : Lexer σ) : Token × Lexer σ :=
  if c = 0x5B then
    let next := self.getNextChar cs
    if next.1 = some 0x5B ∨ next.1 = some 0x3D then
      parseLongString cs (next.2.tokenBufferAppend next.1)
    else (.squareOpen, { next.2 with pushback := true })
  else match punctuation c with
  | some t => (t, self)
  | none =>
    if isDigit c ∨ c = 0x2E then parseNumber cs self
    else if c = 0x2D then
      let next := self.getNextChar cs
      if next.1 = some 0x2D then consumeUntilEndOfComment cs (next.2.tokenBufferAppend next.1)
      else if next.1.any isDigit ∨ next.1 = some 0x2E then
        parseNumber cs (next.2.tokenBufferAppend next.1)
      else (.invalid, { next.2 with pushback := true })
    else if c = 0x27 ∨ c = 0x22 then consumeUntilMatchingQuote cs c self
    else if isNameStart c then parseName cs self
    else (.invalid, self)

/-- The whitespace loop of `ELTN_Lexer_next_token` (`elexer.c:374`): the first character that is no
blank, and the lexer behind it. -/
def skipSpaces : Nat → Option UInt8 → Lexer σ → Option UInt8 × Lexer σ
  | 0, curr, self => (curr, self)
  | fuel + 1, curr, self =>
    if curr.any isSpace then skipSpaces fuel (self.getNextChar cs).1 (self.getNextChar cs).2
    else (curr, self)

/-- `ELTN_Lexer_next_token` (`elexer.c:374`): the token, its line and its column, which are those of
its first byte. Nothing but blanks in front of the end of the input is the end too. -/
def nextToken (self : Lexer σ) : (Token × Nat × Nat) × Lexer σ :=
  let first := self.getNextChar cs
  let self := first.2.tokenBufferClear
  if first.1 = none ∨ self.eos then ((.eof, self.line, self.column), self)
  else
    let lead := skipSpaces cs (self.limit cs) first.1 self
    let self := lead.2.tokenBufferAppend lead.1
    match lead.1 with
    | none => ((.eof, self.line, self.column), self)
    | some c => (((readToken cs c self).1, self.line, self.column), (readToken cs c self).2)

/-- `ELTN_Lexer_token_string` (`elexer.c:96`), the text of the last token: the bytes in the token
buffer. -/
def tokenString (self : Lexer σ) : Bytes := self.tokenBuffer

/-- The lexer after `n` calls of `ELTN_Lexer_next_token`. -/
def after (self : Lexer σ) (n : Nat) : Lexer σ := (fun l => (nextToken cs l).2)^[n] self

end Lexer

end Eltn
