import Eltn.Lib.Program
import Eltn.Parser.Refines

/-!
# The parser as a program

`ELTN_Parser_next` reaches its state through a few operations: it reads a token, sets an event,
signals an error and reads and writes single fields (`Operation`). `Code.next` is the function as a
program over these operations, whatever they do. On the state of the model it is `Parser.next`
(`run_next`), so a state on which the operations do more can be compared with that of the model one
operation at a time.
-/

namespace Eltn

open ParserState

/-- What `ELTN_Parser_next` and the functions it calls do to the parser. All that they do between
these operations is done on local variables. -/
inductive Operation where
  | lexerNextToken
  | setEvent (token : Token) (event : Event)
  | signalError (token : Token) (line column : Nat)
  | event
  | lastEvent
  | setLastEvent (event : Event)
  | depth
  | deeper
  | shallower
  | noDefs
  | setNoDefs
deriving DecidableEq, Repr

/-- What an operation gives: a token with its position, the value of a field, or nothing. -/
abbrev Operation.Reply : Operation → Type
  | .lexerNextToken => Token × Nat × Nat
  | .event => Event
  | .lastEvent => Event
  | .depth => Nat
  | .noDefs => Bool
  | _ => Unit

/-- A program over the parser. -/
abbrev Code (α : Type) : Type := Program Operation.Reply α

namespace Code

/-- One operation. -/
abbrev perform (o : Operation) : Code o.Reply := .op o

/-- The loop of `next_token`, each turn reading a token. -/
def skipComments : Nat → Code (Token × Nat × Nat)
  | 0 => perform .lexerNextToken
  | fuel + 1 => do
    let read : Token × Nat × Nat ← perform .lexerNextToken
    if read.1 = .comment ∨ read.1 = .longComment then skipComments fuel else return read

section
variable (fuel : Nat)

/-- `next_token`. -/
def nextToken : Code (Token × Nat × Nat) := skipComments fuel

/-- `expect_value`: whether the token starts a value, whose event is set. -/
def expectValue (token : Token) : Code Bool :=
  match scalarEvent token with
  | some e => do
    perform (.setEvent token e)
    return true
  | none =>
    if token = .curlyOpen then do
      perform (.setEvent token .tableStart)
      perform .deeper
      return true
    else return false

/-- `expect_new_entry`: the result and the position. A key between brackets reads two tokens more.
-/
def expectNewEntry (token : Token) (pos : Nat × Nat) : Code (Bool × Nat × Nat) :=
  if token = .name then do
    perform (.setEvent token .keyString)
    return (true, pos)
  else if token = .squareOpen then do
    let key ← nextToken fuel
    match keyEvent key.1 with
    | none => return (false, key.2)
    | some e =>
      perform (.setEvent key.1 e)
      let close ← nextToken fuel
      if close.1 ≠ .squareClose then do
        perform (.signalError close.1 close.2.1 close.2.2)
        return (true, close.2)
      else return (true, close.2)
  else do
    let result ← expectValue token
    return (result, pos)

/-- `expect_table_start`: whether the token opens a table, which is one deeper. -/
def expectTableStart (token : Token) : Code Bool :=
  if token = .curlyOpen then do
    perform (.setEvent token .tableStart)
    perform .deeper
    return true
  else return false

/-- `expect_table_end`: whether the token closes a table and there is one to close. -/
def expectTableEnd (token : Token) : Code Bool := do
  let depth : Nat ← perform .depth
  if token = .curlyClose ∧ depth > 0 then do
    perform (.setEvent token .tableEnd)
    perform .shallower
    return true
  else return false

/-- The loop of `expect_new_definition`, each turn reading a token behind a semicolon. -/
def skipSemicolons : Nat → Token → Nat × Nat → Code (Token × Nat × Nat)
  | 0, token, pos => return (token, pos)
  | turns + 1, token, pos =>
    if token = .semicolon then do
      let read ← nextToken fuel
      skipSemicolons turns read.1 read.2
    else return (token, pos)

/-- `expect_new_definition`: the result and the position, those of the first token that is no
semicolon. -/
def expectNewDefinition (token : Token) (pos : Nat × Nat) : Code (Bool × Nat × Nat) := do
  let read ← skipSemicolons fuel (fuel + 1) token pos
  if read.1 = .name then do
    perform (.setEvent read.1 .defName)
    return (true, read.2)
  else return (false, read.2)

/-- `expect_stream_end`: whether the input has ended. -/
def expectStreamEnd (token : Token) : Code Bool :=
  if token = .eof then do
    perform (.setEvent token .streamEnd)
    return true
  else return false

/-- One of the `expect_*` functions, or else `signal_error`. -/
def orSignal (expected : Code Bool) (token : Token) (pos : Nat × Nat) : Code Unit := do
  if ← expected then return () else perform (.signalError token pos.1 pos.2)

/-- The cases of `ELTN_Parser_next` that expect a definition or the end of the input. -/
def nextDefinition (token : Token) (pos : Nat × Nat) : Code Unit := do
  let definition ← expectNewDefinition fuel token pos
  if definition.1 then return () else orSignal (expectStreamEnd token) token definition.2

/-- The cases of `ELTN_Parser_next` that expect an entry or the end of a table. -/
def nextEntry (token : Token) (pos : Nat × Nat) : Code Unit := do
  let entry ← expectNewEntry fuel token pos
  if entry.1 then return () else orSignal (expectTableEnd token) token entry.2

/-- The cases of `ELTN_Parser_next` that expect an equals sign and a value, which reads a token of
its own. -/
def nextValue (token : Token) (pos : Nat × Nat) : Code Unit :=
  if token ≠ .equals then perform (.signalError token pos.1 pos.2)
  else do
    let read ← nextToken fuel
    orSignal (expectValue read.1) read.1 read.2

/-- The cases of `ELTN_Parser_next` behind a value, by the depth and, outside of tables, by the kind
of the document. -/
def nextAfterValue (token : Token) (pos : Nat × Nat) : Code Unit := do
  let depth : Nat ← perform .depth
  if depth = 0 then do
    let noDefs : Bool ← perform .noDefs
    if !noDefs then nextDefinition fuel token pos
    else orSignal (expectStreamEnd token) token pos
  else if token = .comma ∨ token = .semicolon then do
    let read ← nextToken fuel
    nextEntry fuel read.1 read.2
  else orSignal (expectTableEnd token) token pos

/-- The case of `ELTN_Parser_next` at the start of the input. -/
def nextDocument (token : Token) (pos : Nat × Nat) : Code Unit := do
  if ← expectTableStart token then perform .setNoDefs else nextDefinition fuel token pos

/-- The `switch` of `ELTN_Parser_next`, on the event of the last call. -/
def nextCase (lastEvent : Event) (token : Token) (pos : Nat × Nat) : Code Unit :=
  match lastEvent with
  | .streamStart => nextDocument fuel token pos
  | .comment => return ()
  | .defName => nextValue fuel token pos
  | .keyString => nextValue fuel token pos
  | .keyNumber => nextValue fuel token pos
  | .keyInteger => nextValue fuel token pos
  | .tableEnd => nextAfterValue fuel token pos
  | .valueString => nextAfterValue fuel token pos
  | .valueNumber => nextAfterValue fuel token pos
  | .valueInteger => nextAfterValue fuel token pos
  | .valueTrue => nextAfterValue fuel token pos
  | .valueFalse => nextAfterValue fuel token pos
  | .valueNil => nextAfterValue fuel token pos
  | .tableStart => nextEntry fuel token pos
  | .streamEnd => return ()
  | .error => return ()

/-- The first statement of `ELTN_Parser_next`: the event becomes the last one, unless it is a
comment's. -/
def startCall : Code Unit := do
  let event : Event ← perform .event
  if event ≠ .comment then perform (.setLastEvent event) else return ()

/-- `ELTN_Parser_next`: one token is read whatever the last event was, and the `switch` decides
about it. -/
def next : Code Unit := do
  startCall
  let read ← nextToken fuel
  let lastEvent : Event ← perform .lastEvent
  nextCase fuel lastEvent read.1 read.2

end

end Code

/-! ## On the state of the model -/

namespace Parser

section
variable {τ : Type} (ts : TokenSource τ)

/-- The operations on the parser of the model, each by the function of the model; all of them
succeed. -/
def handler : Program.Handler Operation.Reply (Parser τ)
  | .lexerNextToken, self =>
    let read := ts.nextToken self.lexer
    some (read.1, { self with lexer := read.2 })
  | .setEvent token event, self => some ((), self.setEvent ts token event)
  | .signalError token line column, self => some ((), self.signalError ts token (line, column))
  | .event, self => some (self.event, self)
  | .lastEvent, self => some (self.lastEvent, self)
  | .setLastEvent event, self => some ((), self.update fun s => { s with lastEvent := event })
  | .depth, self => some (self.depth, self)
  | .deeper, self => some ((), self.update .push)
  | .shallower, self => some ((), self.update .pop)
  | .noDefs, self => some (self.noDefs, self)
  | .setNoDefs, self => some ((), self.update fun s => { s with noDefs := true })

end

end Parser

/-! ## Loops -/

/-- The source comes to the end of the input after `left` tokens at most, and its limit is beyond
them. This holds of the states that are `Ok`, and reading keeps a state `Ok`. -/
structure TokenSource.Ends {τ : Type} (ts : TokenSource τ) (Ok : τ → Prop) (left : τ → Nat) :
    Prop where
  ok_nextToken : ∀ {s}, Ok s → Ok (ts.nextToken s).2
  left_nextToken : ∀ {s}, Ok s → left (ts.nextToken s).2 ≤ left s
  left_lt : ∀ {s}, Ok s → (ts.nextToken s).1.1 ≠ .eof → left (ts.nextToken s).2 < left s
  lt_limit : ∀ {s}, Ok s → left s < ts.limit s

/-- By its laws a source ends after its tokens. -/
theorem TokenSource.ends {τ : Type} (ts : TokenSource τ) :
    ts.Ends ts.Ok fun s => (ts.lexemes s).length where
  ok_nextToken := ts.ok_nextToken
  left_nextToken hs := by
    rw [ts.lexemes_nextToken hs, List.length_tail]
    exact Nat.sub_le _ _
  left_lt hs h := Nat.lt_of_succ_le (length_nextToken hs h).le
  lt_limit := ts.lt_limit

namespace Parser

/-- The operations other than reading a token see nothing of the lexer but the text of its token, so
they do the same on two parsers with the same fields and texts. -/
theorem handler_same {τ τ' : Type} (ts : TokenSource τ) (ts' : TokenSource τ') {p : Parser τ}
    {q : Parser τ'} {o : Operation} (hstate : p.toParserState = q.toParserState)
    (htext : p.tokenText ts = q.tokenText ts') (ho : o ≠ .lexerNextToken) :
    ∃ r s, handler ts o p = some (r, { p with toParserState := s }) ∧
      handler ts' o q = some (r, { q with toParserState := s }) := by
  obtain ⟨state, lexer⟩ := p
  obtain ⟨state', lexer'⟩ := q
  cases hstate
  cases o with
  | lexerNextToken => exact absurd rfl ho
  | setEvent token e =>
    rw [handler, handler, Parser.setEvent, Parser.setEvent, htext]
    exact ⟨_, _, rfl, rfl⟩
  | signalError token line column =>
    rw [handler, handler, Parser.signalError, Parser.signalError, htext]
    exact ⟨_, _, rfl, rfl⟩
  | _ => exact ⟨_, _, rfl, rfl⟩

/-- Every operation has a result. -/
theorem handler_total {τ : Type} (ts : TokenSource τ) (o : Operation) (p : Parser τ) :
    ∃ r t, handler ts o p = some (r, t) := by
  cases o <;> exact ⟨_, _, rfl⟩

section
variable {τ : Type} {ts : TokenSource τ} {Ok : τ → Prop} {left : τ → Nat} {lexer : τ}
  {self : Parser τ} {fuel fuel' : Nat}

/-- The loop of `next_token` keeps what the source keeps; a token it gives is one less. By induction
on its turns. -/
theorem skipComments_ends (hends : ts.Ends Ok left) (fuel : Nat) : ∀ {lexer : τ}, Ok lexer →
    Ok (skipComments ts fuel lexer).2 ∧ left (skipComments ts fuel lexer).2 ≤ left lexer ∧
      ((skipComments ts fuel lexer).1.1 ≠ .eof →
        left (skipComments ts fuel lexer).2 < left lexer) := by
  induction fuel with
  | zero =>
    exact fun hok => ⟨hends.ok_nextToken hok, hends.left_nextToken hok, hends.left_lt hok⟩
  | succ fuel ih =>
    intro lexer hok
    have hle := hends.left_nextToken hok
    rw [skipComments]
    split
    · obtain ⟨hok', hle', hlt⟩ := ih (hends.ok_nextToken hok)
      exact ⟨hok', hle'.trans hle, fun h => Nat.lt_of_lt_of_le (hlt h) hle⟩
    · exact ⟨hends.ok_nextToken hok, hle, hends.left_lt hok⟩

/-- More turns than the loop of `next_token` needs change nothing: it ends before they are used up.
-/
theorem skipComments_fuel (hends : ts.Ends Ok left) (fuel : Nat) : ∀ {fuel' : Nat} {lexer : τ},
    Ok lexer → left lexer < fuel → left lexer < fuel' →
    skipComments ts fuel lexer = skipComments ts fuel' lexer := by
  induction fuel with
  | zero => exact fun _ hfuel => absurd hfuel (Nat.not_lt_zero _)
  | succ fuel ih =>
    intro fuel' lexer hok hfuel hfuel'
    obtain ⟨fuel', rfl⟩ : ∃ k, fuel' = k + 1 := ⟨fuel' - 1, by omega⟩
    rw [skipComments, skipComments]
    split
    · next hcomment =>
      have hne : (ts.nextToken lexer).1.1 ≠ .eof := by
        rcases hcomment with h | h <;> rw [h] <;> simp
      have hlt := hends.left_lt hok hne
      exact ih (hends.ok_nextToken hok) (by omega) (by omega)
    · rfl

/-- More turns than the loop of `expect_new_definition` needs change nothing: each semicolon is a
token less. -/
theorem skipSemicolons_fuel (hends : ts.Ends Ok left) (turns : Nat) : ∀ {turns' : Nat}
    {self : Parser τ} {token : Token} {pos : Nat × Nat}, Ok self.lexer →
    left self.lexer < turns → left self.lexer < turns' →
    skipSemicolons ts turns token pos self = skipSemicolons ts turns' token pos self := by
  induction turns with
  | zero => exact fun _ hturns => absurd hturns (Nat.not_lt_zero _)
  | succ turns ih =>
    intro turns' self token pos hok hturns hturns'
    rcases eq_or_ne token .semicolon with rfl | htoken
    swap
    · rw [skipSemicolons_of_ne htoken, skipSemicolons_of_ne htoken]
    obtain ⟨turns', rfl⟩ : ∃ k, turns' = k + 1 := ⟨turns' - 1, by omega⟩
    rw [skipSemicolons, skipSemicolons, if_pos rfl, if_pos rfl]
    rcases eq_or_ne (self.nextToken ts).1.1 .semicolon with hnext | hnext
    · obtain ⟨hok', -, hlt⟩ := skipComments_ends hends (ts.limit self.lexer) hok
      have hlt := hlt (by rw [show (skipComments ts _ self.lexer).1.1 = _ from hnext]; simp)
      exact ih hok' (Nat.lt_of_lt_of_le hlt (Nat.le_of_lt_succ hturns))
        (Nat.lt_of_lt_of_le hlt (Nat.le_of_lt_succ hturns'))
    · exact (skipSemicolons_of_ne hnext _ _ _).trans (skipSemicolons_of_ne hnext _ _ _).symm

/-! ## Runs -/

/-- The source ends before the loops run out of turns. -/
structure Enough (ts : TokenSource τ) (fuel : Nat) (p : Parser τ) : Prop where
  ends : ∃ Ok left, ts.Ends Ok left ∧ Ok p.lexer ∧ left p.lexer < fuel

/-- To read a token leaves enough turns for the others, since it leaves fewer tokens. -/
theorem Enough.nextToken (h : Enough ts fuel self) : Enough ts fuel (self.nextToken ts).2 := by
  obtain ⟨Ok, left, hends, hok, hlt⟩ := h.ends
  obtain ⟨hok', hle, -⟩ := skipComments_ends hends (ts.limit self.lexer) hok
  exact ⟨Ok, left, hends, hok', Nat.lt_of_le_of_lt hle hlt⟩

/-- The fields other than the lexer do not count. -/
theorem Enough.of_lexer {p q : Parser τ} (h : Enough ts fuel p) (hlexer : q.lexer = p.lexer) :
    Enough ts fuel q := by
  obtain ⟨Ok, left, hends, hok, hlt⟩ := h.ends
  exact ⟨Ok, left, hends, hlexer ▸ hok, hlexer ▸ hlt⟩

/-- More turns are enough too. -/
theorem Enough.mono (h : Enough ts fuel self) (hle : fuel ≤ fuel') : Enough ts fuel' self := by
  obtain ⟨Ok, left, hends, hok, hlt⟩ := h.ends
  exact ⟨Ok, left, hends, hok, Nat.lt_of_lt_of_le hlt hle⟩

/-- By the laws of its source a parser has turns enough for its tokens. -/
theorem enough_of_ok (h : ts.Ok self.lexer) :
    Enough ts ((ts.lexemes self.lexer).length + 1) self :=
  ⟨_, _, ts.ends, h, Nat.lt_succ_self _⟩

/-- The loop of `next_token`, run on the parser of the model, is its loop. -/
theorem run_skipComments (fuel : Nat) : ∀ self : Parser τ,
    (Code.skipComments fuel).run (handler ts) self =
      some ((skipComments ts fuel self.lexer).1,
        { self with lexer := (skipComments ts fuel self.lexer).2 }) := by
  induction fuel with
  | zero => exact fun self => Program.run_op _ _ _
  | succ fuel ih =>
    intro self
    rw [Code.skipComments, skipComments, Program.run_bind, Program.run_op, handler,
      Option.bind_some, Program.run_ite]
    split
    · exact ih _
    · rfl

/-- `next_token` as a program is `next_token` of the model, where the loop has enough turns. -/
theorem run_nextToken (h : Enough ts fuel self) :
    (Code.nextToken fuel).run (handler ts) self = some (self.nextToken ts) := by
  obtain ⟨Ok, left, hends, hok, hlt⟩ := h.ends
  rw [Code.nextToken, run_skipComments, skipComments_fuel hends fuel hok hlt (hends.lt_limit hok)]
  rfl

/-- What the `expect_*` functions that read nothing give: whether the function of the model has an
outcome, and the parser of that outcome. -/
theorem run_expectValue (token : Token) (self : Parser τ) :
    (Code.expectValue token).run (handler ts) self =
      some ((self.tryState ts (ParserState.expectValue token)).isSome,
        (self.tryState ts (ParserState.expectValue token)).getD self) := by
  rw [Code.expectValue, tryState, ParserState.expectValue]
  cases hscalar : scalarEvent token with
  | some e => simp [handler, Parser.setEvent, Parser.update]
  | none =>
    dsimp only
    split <;> simp [handler, Parser.setEvent, Parser.update]

/-- `expect_table_start` as a program gives `true` exactly where that of the model has an outcome,
and leaves the parser alone otherwise. -/
theorem run_expectTableStart (token : Token) (self : Parser τ) :
    (Code.expectTableStart token).run (handler ts) self =
      some ((self.tryState ts (ParserState.expectTableStart token)).isSome,
        (self.tryState ts (ParserState.expectTableStart token)).getD self) := by
  rw [Code.expectTableStart, tryState, ParserState.expectTableStart]
  split <;> simp [handler, Parser.setEvent, Parser.update]

/-- `expect_table_end` as a program, likewise. -/
theorem run_expectTableEnd (token : Token) (self : Parser τ) :
    (Code.expectTableEnd token).run (handler ts) self =
      some ((self.tryState ts (ParserState.expectTableEnd token)).isSome,
        (self.tryState ts (ParserState.expectTableEnd token)).getD self) := by
  rw [Code.expectTableEnd, tryState, ParserState.expectTableEnd, Program.run_bind, Program.run_op,
    handler, Option.bind_some, Program.run_ite]
  split <;> simp [handler, Parser.setEvent, Parser.update]

/-- `expect_stream_end` as a program, likewise. -/
theorem run_expectStreamEnd (token : Token) (self : Parser τ) :
    (Code.expectStreamEnd token).run (handler ts) self =
      some ((self.tryState ts (ParserState.expectStreamEnd token)).isSome,
        (self.tryState ts (ParserState.expectStreamEnd token)).getD self) := by
  rw [Code.expectStreamEnd, tryState, ParserState.expectStreamEnd]
  split <;> simp [handler, Parser.setEvent, Parser.update]

/-- `expect_new_entry` as a program is that of the model, with the result, the position and the
parser. -/
theorem run_expectNewEntry (h : Enough ts fuel self) (token : Token) (pos : Nat × Nat) :
    (Code.expectNewEntry fuel token pos).run (handler ts) self =
      some (((self.expectNewEntry ts token pos).1, (self.expectNewEntry ts token pos).2.1),
        (self.expectNewEntry ts token pos).2.2) := by
  rw [Code.expectNewEntry, expectNewEntry]
  split
  · simp [handler]
  split
  · rw [Program.run_bind, run_nextToken h, Option.bind_some]
    dsimp only
    cases keyEvent (self.nextToken ts).1.1 with
    | none => rfl
    | some e =>
      have hkey : Enough ts fuel ((self.nextToken ts).2.setEvent ts (self.nextToken ts).1.1 e) :=
        h.nextToken.of_lexer rfl
      dsimp only
      rw [Program.run_bind, Program.run_op, handler, Option.bind_some, Program.run_bind,
        run_nextToken hkey, Option.bind_some, Program.run_ite]
      split
      · rw [Program.run_bind, Program.run_op, handler, Option.bind_some]
        rfl
      · rfl
  · rw [Program.run_bind, run_expectValue, Option.bind_some]
    cases self.tryState ts (ParserState.expectValue token) <;> rfl

/-- The loop of `expect_new_definition`, run on the parser of the model, is its loop. By induction
on its turns. -/
theorem run_skipSemicolons (turns : Nat) : ∀ {self : Parser τ}, Enough ts fuel self →
    ∀ token pos, (Code.skipSemicolons fuel turns token pos).run (handler ts) self =
      some (skipSemicolons ts turns token pos self) := by
  induction turns with
  | zero => exact fun _ _ _ => rfl
  | succ turns ih =>
    intro self h token pos
    rw [Code.skipSemicolons, skipSemicolons, Program.run_ite]
    split
    · rw [Program.run_bind, run_nextToken h, Option.bind_some]
      exact ih h.nextToken _ _
    · rfl

/-- `expect_new_definition` as a program is that of the model. -/
theorem run_expectNewDefinition (h : Enough ts fuel self) (token : Token) (pos : Nat × Nat) :
    (Code.expectNewDefinition fuel token pos).run (handler ts) self =
      some (((self.expectNewDefinition ts token pos).1,
        (self.expectNewDefinition ts token pos).2.1),
        (self.expectNewDefinition ts token pos).2.2) := by
  obtain ⟨Ok, left, hends, hok, hlt⟩ := h.ends
  rw [Code.expectNewDefinition, expectNewDefinition, Program.run_bind, run_skipSemicolons _ h,
    Option.bind_some, skipSemicolons_fuel hends (fuel + 1) hok (Nat.lt_succ_of_lt hlt)
      (Nat.lt_succ_of_lt (hends.lt_limit hok)), Program.run_ite]
  split <;> simp [handler]

/-- A function that reads nothing, or an error: what the model writes as the function's outcome or
else the one of `signal_error`. -/
theorem run_orSignal {expected : Code Bool} {f : Bytes → ParserState → Option ParserState}
    (h : expected.run (handler ts) self =
      some ((self.tryState ts f).isSome, (self.tryState ts f).getD self))
    (token : Token) (pos : Nat × Nat) :
    (Code.orSignal expected token pos).run (handler ts) self =
      some ((), (self.tryState ts f).getD (self.signalError ts token pos)) := by
  rw [Code.orSignal, Program.run_bind, h, Option.bind_some]
  cases self.tryState ts f with
  | none => exact Program.run_op _ _ _
  | some self => rfl

/-- The part of the `switch` where a definition is expected, run on the parser of the model, is
`nextDefinition`. -/
theorem run_nextDefinition (h : Enough ts fuel self) (token : Token) (pos : Nat × Nat) :
    (Code.nextDefinition fuel token pos).run (handler ts) self =
      some ((), self.nextDefinition ts token pos) := by
  rw [Code.nextDefinition, nextDefinition, Program.run_bind, run_expectNewDefinition h,
    Option.bind_some]
  dsimp only
  rw [Program.run_ite]
  split
  · rfl
  · exact run_orSignal (run_expectStreamEnd _ _) _ _

/-- The part of the `switch` where an entry is expected, run on the parser of the model, is
`nextEntry`. -/
theorem run_nextEntry (h : Enough ts fuel self) (token : Token) (pos : Nat × Nat) :
    (Code.nextEntry fuel token pos).run (handler ts) self =
      some ((), self.nextEntry ts token pos) := by
  rw [Code.nextEntry, nextEntry, Program.run_bind, run_expectNewEntry h, Option.bind_some]
  dsimp only
  rw [Program.run_ite]
  split
  · rfl
  · exact run_orSignal (run_expectTableEnd _ _) _ _

/-- The part of the `switch` behind a key, run on the parser of the model, is `nextValue`. -/
theorem run_nextValue (h : Enough ts fuel self) (token : Token) (pos : Nat × Nat) :
    (Code.nextValue fuel token pos).run (handler ts) self =
      some ((), self.nextValue ts token pos) := by
  rw [Code.nextValue, nextValue, Program.run_ite]
  split
  · exact Program.run_op _ _ _
  · rw [Program.run_bind, run_nextToken h, Option.bind_some]
    exact run_orSignal (run_expectValue _ _) _ _

/-- The part of the `switch` behind a value, in each of its four cases. -/
theorem run_nextAfterValue (h : Enough ts fuel self) (token : Token) (pos : Nat × Nat) :
    (Code.nextAfterValue fuel token pos).run (handler ts) self =
      some ((), self.nextAfterValue ts token pos) := by
  rw [Code.nextAfterValue, nextAfterValue, Program.run_bind, Program.run_op, handler,
    Option.bind_some, Program.run_ite]
  split
  · rw [Program.run_bind, Program.run_op, handler, Option.bind_some, Program.run_ite]
    split
    · exact run_nextDefinition h _ _
    · exact run_orSignal (run_expectStreamEnd _ _) _ _
  rw [Program.run_ite]
  split
  · rw [Program.run_bind, run_nextToken h, Option.bind_some]
    exact run_nextEntry h.nextToken _ _
  · exact run_orSignal (run_expectTableEnd _ _) _ _

/-- The part of the `switch` at the start of the input. -/
theorem run_nextDocument (h : Enough ts fuel self) (token : Token) (pos : Nat × Nat) :
    (Code.nextDocument fuel token pos).run (handler ts) self =
      some ((), ((self.tryState ts (ParserState.expectTableStart token)).map fun self =>
        self.update fun s => { s with noDefs := true }).getD
          (self.nextDefinition ts token pos)) := by
  rw [Code.nextDocument, Program.run_bind, run_expectTableStart, Option.bind_some]
  cases self.tryState ts (ParserState.expectTableStart token) with
  | none => exact run_nextDefinition h _ _
  | some self => exact Program.run_op _ _ _

/-- **The program is `ELTN_Parser_next`** on the state of the model, where its loops have enough
turns. -/
theorem run_next (h : Enough ts fuel self) :
    (Code.next fuel).run (handler ts) self = some ((), self.next ts) := by
  rw [Code.next, next, Program.run_bind]
  have hstart : Code.startCall.run (handler ts) self = some ((),
      if self.event ≠ .comment then self.update fun s => { s with lastEvent := s.event }
      else self) := by
    rw [Code.startCall, Program.run_bind, Program.run_op, handler, Option.bind_some,
      Program.run_ite]
    split
    · exact Program.run_op _ _ _
    · rfl
  rw [hstart, Option.bind_some]
  have h' : Enough ts fuel (if self.event ≠ .comment then
      self.update fun s => { s with lastEvent := s.event } else self) := by
    split
    · exact h.of_lexer rfl
    · exact h
  generalize (if self.event ≠ .comment then self.update fun s => { s with lastEvent := s.event }
    else self) = self at h' ⊢
  rw [Program.run_bind, run_nextToken h', Option.bind_some, Program.run_bind, Program.run_op,
    handler, Option.bind_some]
  have hread := h'.nextToken
  dsimp only
  cases (self.nextToken ts).2.lastEvent with
  | streamStart => exact run_nextDocument hread _ _
  | comment | streamEnd | error => rfl
  | defName | keyString | keyNumber | keyInteger => exact run_nextValue hread _ _
  | tableEnd | valueString | valueNumber | valueInteger | valueTrue | valueFalse | valueNil =>
    exact run_nextAfterValue hread _ _
  | tableStart => exact run_nextEntry hread _ _

end

/-! ## Two parsers -/

section
variable {τ τ' : Type} (ts : TokenSource τ) (ts' : TokenSource τ') {p : Parser τ} {q : Parser τ'}
  {fuel fuel' : Nat} {R : Parser τ → Parser τ' → Prop} {E : Parser τ → Prop}

/-- **What the operations keep, `ELTN_Parser_next` keeps.** The first parser may leave the relation
for good. -/
theorem next_until (hp : Enough ts fuel p) (hq : Enough ts' fuel' q)
    (hstep : ∀ o p q, R p q → ∃ r t, handler ts o p = some (r, t) ∧
      (E t ∨ ∃ t', handler ts' o q = some (r, t') ∧ R t t'))
    (hkeep : ∀ o p, E p → ∃ r t, handler ts o p = some (r, t) ∧ E t) (h : R p q) :
    E (p.next ts) ∨ R (p.next ts) (q.next ts') := by
  obtain ⟨_, t, hrun, hend⟩ := Program.run_until hstep hkeep (Code.next (max fuel fuel')) h
  rw [run_next (hp.mono (Nat.le_max_left _ _))] at hrun
  rw [run_next (hq.mono (Nat.le_max_right _ _))] at hend
  obtain ⟨-, rfl⟩ := Prod.mk.inj (Option.some.inj hrun)
  refine hend.imp_right ?_
  rintro ⟨t', hrun', hrel⟩
  obtain ⟨-, rfl⟩ := Prod.mk.inj (Option.some.inj hrun')
  exact hrel

end

end Parser

end Eltn
