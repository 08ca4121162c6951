import Eltn.Parser.Basic
import Mathlib.Tactic.Common

/-!
# One call of the parser

What one call of `ELTN_Parser_next` can do, as a function of the last event, the depth, `no_defs`
and the tokens left that are not comments (`step`). `next_follows` is the refinement: on a stream of
tokens the call reports the event of `step` with the text of its token, or its error with the
position and the text of the last token read, and it reads exactly the tokens `step` uses.
-/

namespace Eltn

open ParserState

/-! ## The automaton -/

/-- What a call comes to: an event with the new depth and `no_defs`, the token that the event is
about and the tokens read; or an error with the token that decides its code, the last token read
and the tokens read before that; or nothing. -/
inductive Outcome where
  | moved (e : Event) (depth : Nat) (noDefs : Bool) (x : Lexeme) (used : List Lexeme)
  | failed (code : Token) (t : Lexeme) (before : List Lexeme)
  | halted

section
variable (final : Lexeme) (depth : Nat) (noDefs : Bool) (pre toks : List Lexeme)

/-- A value is expected; `pre` was read before in the same call. The next token is a scalar, opens a
table, or is blamed. -/
def valueStep : Outcome :=
  let x := toks.headD final
  match scalarEvent x.token with
  | some e => .moved e depth noDefs x (pre ++ [x])
  | none =>
    if x.token = .curlyOpen then .moved .tableStart (deeper depth) noDefs x (pre ++ [x])
    else .failed x.token x pre

/-- The end of a table is expected, inside of one. -/
def tableEndStep : Outcome :=
  let x := toks.headD final
  if x.token = .curlyClose ∧ depth > 0 then .moved .tableEnd (depth - 1) noDefs x (pre ++ [x])
  else .failed x.token x pre

/-- An entry or the end of a table is expected. An error behind a bracket is decided by the
bracket. -/
def entryStep : Outcome :=
  let x := toks.headD final
  if x.token = .name then .moved .keyString depth noDefs x (pre ++ [x])
  else if x.token = .squareOpen then
    let key := toks.tail.headD final
    match keyEvent key.token with
    | none => .failed .squareOpen key (pre ++ [x])
    | some e =>
      let close := toks.tail.tail.headD final
      if close.token = .squareClose then .moved e depth noDefs key (pre ++ [x, key, close])
      else .failed close.token close (pre ++ [x, key])
  else if (scalarEvent x.token).isSome ∨ x.token = .curlyOpen then
    valueStep final depth noDefs pre toks
  else tableEndStep final depth noDefs pre toks

/-- The token is a semicolon. -/
def Lexeme.isSemicolon (x : Lexeme) : Bool := x.token = .semicolon

/-- A definition or the end of the input is expected. An error behind semicolons is decided by the
first one, and the end of the input is not seen there. -/
def definitionStep : Outcome :=
  let semis := toks.takeWhile (·.isSemicolon)
  let x := (toks.dropWhile (·.isSemicolon)).headD final
  if x.token = .name then .moved .defName depth noDefs x (semis ++ [x])
  else if semis = [] ∧ x.token = .eof then .moved .streamEnd depth noDefs x [x]
  else .failed (if semis = [] then x.token else .semicolon) x semis

/-- An equals sign and a value are expected, both read in the same call. -/
def keyStep : Outcome :=
  let x := toks.headD final
  if x.token = .equals then valueStep final depth noDefs [x] toks.tail
  else .failed x.token x []

/-- What follows a value is expected: a definition or the end of the input, or behind a separator an
entry, or the end of the table. -/
def afterValueStep : Outcome :=
  let x := toks.headD final
  if depth = 0 then
    if !noDefs then definitionStep final depth noDefs toks
    else if x.token = .eof then .moved .streamEnd depth noDefs x [x]
    else .failed x.token x []
  else if x.token = .comma ∨ x.token = .semicolon then entryStep final depth noDefs [x] toks.tail
  else tableEndStep final depth noDefs [] toks

/-- One call of `ELTN_Parser_next` after the event `last`, on the tokens left: what it reports and
how many it reads. This is `Parser.next` without its state. -/
def step (last : Event) : Outcome :=
  match last with
  | .streamStart =>
    if (toks.headD final).token = .curlyOpen then
      .moved .tableStart (deeper depth) true (toks.headD final) [toks.headD final]
    else definitionStep final depth noDefs toks
  | .comment => .halted
  | .defName => keyStep final depth noDefs toks
  | .keyString => keyStep final depth noDefs toks
  | .keyNumber => keyStep final depth noDefs toks
  | .keyInteger => keyStep final depth noDefs toks
  | .tableEnd => afterValueStep final depth noDefs toks
  | .valueString => afterValueStep final depth noDefs toks
  | .valueNumber => afterValueStep final depth noDefs toks
  | .valueInteger => afterValueStep final depth noDefs toks
  | .valueTrue => afterValueStep final depth noDefs toks
  | .valueFalse => afterValueStep final depth noDefs toks
  | .valueNil => afterValueStep final depth noDefs toks
  | .tableStart => entryStep final depth noDefs [] toks
  | .streamEnd => .halted
  | .error => .halted

end

/-! ## Reading -/

namespace Stream

/-- The tokens read that are not comments, the last one first. -/
def seen (s : Stream) : List Lexeme := s.read.filter (!·.isComment)

/-- Between `s` and `s'` the tokens `used` were read, not counting comments, and the last of them is
the one that the source holds. -/
structure Reads (s : Stream) (used : List Lexeme) (s' : Stream) : Prop where
  significant_eq : s'.significant = s.significant.drop used.length
  final_eq : s'.final = s.final
  seen_eq : s'.seen = used.reverse ++ s.seen
  head_eq : s'.read.head? = (used.reverse ++ s.read).head?

variable {s s' s'' : Stream} {used used' : List Lexeme}

/-- Where nothing was read the stream is the same. -/
theorem Reads.refl (s : Stream) : Reads s [] s := ⟨rfl, rfl, rfl, rfl⟩

/-- What is read in two parts is read one part behind the other. -/
theorem Reads.trans (h : Reads s used s') (h' : Reads s' used' s'') :
    Reads s (used ++ used') s'' where
  significant_eq := by
    rw [h'.significant_eq, h.significant_eq, List.drop_drop, List.length_append]
  final_eq := h'.final_eq.trans h.final_eq
  seen_eq := by rw [h'.seen_eq, h.seen_eq, List.reverse_append, List.append_assoc]
  head_eq := by
    rw [h'.head_eq, List.head?_append, h.head_eq, ← List.head?_append, List.reverse_append,
      List.append_assoc]

/-- The end of the input is no comment. -/
theorem final_isComment (s : Stream) : s.final.isComment = false := by
  rw [Lexeme.isComment, s.final_token]
  rfl

/-- To read a comment changes nothing about the tokens that count. -/
theorem significant_of_comment (h : s.next.isComment = true) :
    s.advance.significant = s.significant ∧ s.advance.seen = s.seen := by
  refine ⟨?_, by rw [seen, advance]; simp [h, seen]⟩
  show s.rest.tail.filter _ = s.rest.filter _
  rw [next] at h
  cases hr : s.rest with
  | nil => rfl
  | cons x r =>
    rw [hr] at h
    simp only [List.tail_cons, List.headD_cons] at h ⊢
    rw [List.filter_cons, if_neg (by simp [h])]

/-- Reading a token that is no comment reads the next of the tokens that count. -/
theorem reads_advance (h : s.next.isComment = false) :
    s.next = s.significant.headD s.final ∧ Reads s [s.significant.headD s.final] s.advance := by
  have hnext :
      s.next = s.significant.headD s.final ∧ s.advance.significant = s.significant.tail := by
    show s.rest.headD s.final = (s.rest.filter _).headD s.final ∧
      s.rest.tail.filter _ = (s.rest.filter _).tail
    rw [next] at h
    cases hr : s.rest with
    | nil => exact ⟨rfl, rfl⟩
    | cons x r =>
      rw [hr] at h
      simp only [List.headD_cons] at h
      simp only [List.tail_cons, List.headD_cons, List.filter_cons, h, Bool.not_false, if_true]
      exact ⟨trivial, trivial⟩
  refine ⟨hnext.1, ⟨?_, rfl, ?_, ?_⟩⟩
  · rw [hnext.2, List.length_singleton, List.drop_one]
  · rw [← hnext.1, seen, advance]
    simp [h, seen]
  · rw [← hnext.1]
    rfl

/-- The loop of `next_token` delivers the next token that is no comment, and reads just that one of
the tokens that count. By induction on its turns. -/
theorem skipComments_reads (fuel : Nat) : ∀ {s : Stream}, s.rest.length < fuel + 1 →
    (Parser.skipComments .stream fuel s).1 = (s.significant.headD s.final).report ∧
      Reads s [s.significant.headD s.final] (Parser.skipComments .stream fuel s).2 := by
  induction fuel with
  | zero =>
    intro s hs
    have hnil : s.rest = [] := List.eq_nil_of_length_eq_zero (by omega)
    have hnext : s.next = s.final := by rw [next, hnil]; rfl
    obtain ⟨heq, hreads⟩ := reads_advance (s := s) (by rw [hnext, s.final_isComment])
    exact ⟨congrArg Lexeme.report heq, hreads⟩
  | succ fuel ih =>
    intro s hs
    rw [Parser.skipComments]
    show (if s.next.token = .comment ∨ s.next.token = .longComment then
        Parser.skipComments .stream fuel s.advance else (s.next.report, s.advance)).1 = _ ∧
      Reads s _ (if s.next.token = .comment ∨ s.next.token = .longComment then
        Parser.skipComments .stream fuel s.advance else (s.next.report, s.advance)).2
    cases hcomment : s.next.isComment with
    | true =>
      obtain ⟨hsig, hseen⟩ := significant_of_comment hcomment
      rw [if_pos (by simpa [Lexeme.isComment] using hcomment), ← hsig]
      have hlen : s.advance.rest.length < fuel + 1 := by
        have hne : s.rest ≠ [] := by
          intro hnil
          rw [next, hnil, List.headD_nil, s.final_isComment] at hcomment
          cases hcomment
        have := List.length_pos_iff.mpr hne
        show s.rest.tail.length < fuel + 1
        rw [List.length_tail]
        omega
      obtain ⟨hreport, hreads⟩ := ih hlen
      refine ⟨hreport, ⟨?_, hreads.final_eq, ?_, ?_⟩⟩
      · rw [hreads.significant_eq, hsig]
        rfl
      · rw [hreads.seen_eq, hseen]
        rfl
      · rw [hreads.head_eq]
        rfl
    | false =>
      rw [if_neg (by simpa [Lexeme.isComment] using hcomment)]
      obtain ⟨heq, hreads⟩ := reads_advance hcomment
      exact ⟨congrArg Lexeme.report heq, hreads⟩

end Stream

/-! ## Events and errors -/

namespace ParserState

/-- With a table open the depth goes down by one, without wrapping around. -/
theorem shallower_eq {depth : Nat} (h : depth > 0) (hlt : depth < 2 ^ 32) :
    shallower depth = depth - 1 := by
  unfold shallower
  omega

section
variable (self : ParserState) (token : Token) (e : Event) (text : Bytes)

/-- `set_string_copy` changes the string only. -/
theorem setStringCopy_frame : ∃ string len max, self.setStringCopy text =
    { self with string := string, stringLen := len, stringMax := max } := by
  unfold setStringCopy
  dsimp only
  split <;> exact ⟨_, _, _, rfl⟩

/-- `set_event` changes the event, the text and the string only. -/
theorem setEvent_frame : ∃ string len max, self.setEvent token e text =
    { self with
      event := e, text := some text, string := string, stringLen := len, stringMax := max } := by
  obtain ⟨string, len, max, hcopy⟩ :=
    setStringCopy_frame ({ self with event := e }.captureTokenBuffer text) text
  cases token <;> first | exact ⟨_, _, _, hcopy⟩ | exact ⟨_, _, _, rfl⟩

/-- `set_event` sets the event. -/
@[simp] theorem setEvent_event : (self.setEvent token e text).event = e := by
  obtain ⟨_, _, _, h⟩ := self.setEvent_frame token e text
  rw [h]

/-- `set_event` keeps the text of the token. -/
@[simp] theorem setEvent_text : (self.setEvent token e text).text = some text := by
  obtain ⟨_, _, _, h⟩ := self.setEvent_frame token e text
  rw [h]

/-- `set_event` leaves the depth alone. -/
@[simp] theorem setEvent_depth : (self.setEvent token e text).depth = self.depth := by
  obtain ⟨_, _, _, h⟩ := self.setEvent_frame token e text
  rw [h]

/-- `set_event` leaves `no_defs` alone. -/
@[simp] theorem setEvent_noDefs : (self.setEvent token e text).noDefs = self.noDefs := by
  obtain ⟨_, _, _, h⟩ := self.setEvent_frame token e text
  rw [h]

/-- `signal_error` sets the event, the text and the position; the token decides the code. -/
theorem signalError_frame (line column : Nat) : ∃ string len max,
    self.signalError token line column text =
    { self with
      event := .error, text := some text, errcode := errorCode token, errline := line
      errcolumn := column, string := string, stringLen := len, stringMax := max } := by
  obtain ⟨string, len, max, hcopy⟩ :=
    setStringCopy_frame ({ self with event := .error }.captureTokenBuffer text) text
  exact ⟨string, len, max, by rw [signalError, hcopy]; rfl⟩

end

end ParserState

namespace Parser

/-- The parser `p'` came out of a call as the outcome says, the stream being `s` and the other
fields `st` before it. -/
def Follows (s : Stream) (st : ParserState) (p' : Parser Stream) : Outcome → Prop
  | .moved e depth noDefs x used =>
    p'.event = e ∧ p'.depth = depth ∧ p'.noDefs = noDefs ∧ p'.text = some x.text ∧
      s.Reads used p'.lexer
  | .failed code t before =>
    p'.event = .error ∧ p'.errcode = errorCode code ∧
      (p'.errline = t.line ∧ p'.errcolumn = t.column) ∧ p'.text = some t.text ∧
      s.Reads (before ++ [t]) p'.lexer
  | .halted => p'.toParserState = { st with lastEvent := st.event }

section
variable {s : Stream} (st : ParserState) {q : Parser Stream} {x : Lexeme} {pre : List Lexeme}

/-- The text in the lexer is that of the last token read. -/
theorem tokenText_reads (h : s.Reads (pre ++ [x]) q.lexer) : q.tokenText .stream = x.text := by
  show (q.lexer.read.head?.map (·.text)).getD [] = x.text
  rw [h.head_eq]
  simp

/-- `next_token` reads the next token that is no comment. -/
theorem nextToken_reads (h : s.Reads pre q.lexer)
    (hx : (s.significant.drop pre.length).headD s.final = x) :
    ∃ q', q.nextToken .stream = (x.report, q') ∧ s.Reads (pre ++ [x]) q'.lexer ∧
      q'.toParserState = q.toParserState := by
  obtain ⟨hreport, hreads⟩ := Stream.skipComments_reads (q.lexer.rest.length + 1) (s := q.lexer)
    (by omega)
  rw [h.significant_eq, h.final_eq, hx] at hreport hreads
  exact ⟨(q.nextToken .stream).2, Prod.ext hreport rfl, h.trans hreads, rfl⟩

/-- A call that ends with `set_event` comes to that event, for the last token read. -/
theorem setEvent_follows (h : s.Reads (pre ++ [x]) q.lexer) (token : Token) (e : Event) :
    Follows s st (q.setEvent .stream token e) (.moved e q.depth q.noDefs x (pre ++ [x])) := by
  refine ⟨?_, ?_, ?_, ?_, h⟩
  · exact setEvent_event _ _ _ _
  · exact setEvent_depth _ _ _ _
  · exact setEvent_noDefs _ _ _ _
  · rw [← tokenText_reads h]
    exact setEvent_text _ _ _ _

/-- A call that ends with `signal_error` comes to an error at the last token read. -/
theorem signalError_follows (h : s.Reads (pre ++ [x]) q.lexer) (code : Token) :
    Follows s st (q.signalError .stream code (x.line, x.column)) (.failed code x pre) := by
  obtain ⟨_, _, _, hframe⟩ :=
    q.toParserState.signalError_frame code (q.tokenText .stream) x.line x.column
  have hstate : (q.signalError .stream code (x.line, x.column)).toParserState = _ := hframe
  rw [tokenText_reads h] at hstate
  refine ⟨?_, ?_, ⟨?_, ?_⟩, ?_, h⟩ <;> rw [hstate]

/-- A table starts: `set_event` and `depth++`. -/
theorem tableStart_follows (h : s.Reads (pre ++ [x]) q.lexer) (noDefs : Bool) :
    Follows s st ((q.setEvent .stream x.token .tableStart).update fun s =>
        { s.push with noDefs := noDefs })
      (.moved .tableStart (deeper q.depth) noDefs x (pre ++ [x])) := by
  obtain ⟨hevent, hdepth, -, htext, hreads⟩ :=
    setEvent_follows st h x.token .tableStart
  refine ⟨hevent, ?_, rfl, htext, hreads⟩
  exact congrArg deeper hdepth

/-- `expect_value` on the token just read does what `valueStep` says, with the error signalled where
it is `false`. -/
theorem valueStep_follows (h : s.Reads (pre ++ [x]) q.lexer)
    (hx : (s.significant.drop pre.length).headD s.final = x) :
    Follows s st ((q.tryState .stream (expectValue x.token)).getD
        (q.signalError .stream x.token (x.line, x.column)))
      (valueStep s.final q.depth q.noDefs pre (s.significant.drop pre.length)) := by
  rw [valueStep, hx, tryState, expectValue]
  cases hscalar : scalarEvent x.token with
  | some e => exact setEvent_follows _ h x.token e
  | none =>
    rcases eq_or_ne x.token .curlyOpen with hopen | hopen
    · simp only [if_pos hopen]
      obtain ⟨hevent, hdepth, -, htext, hreads⟩ :=
        tableStart_follows st h q.noDefs
      exact ⟨hevent, hdepth, setEvent_noDefs _ _ _ _, htext, hreads⟩
    · simp only [if_neg hopen]
      exact signalError_follows _ h x.token

/-- `expect_value` takes scalars and opening braces. -/
theorem tryValue_isSome (q : Parser Stream) (token : Token) :
    (q.tryState .stream (expectValue token)).isSome ↔
      (scalarEvent token).isSome ∨ token = .curlyOpen := by
  rw [tryState, Option.isSome_map, expectValue]
  cases hscalar : scalarEvent token with
  | some e => simp
  | none => by_cases hopen : token = .curlyOpen <;> simp [hopen]

/-- `expect_table_end` on the token just read does what `tableEndStep` says. -/
theorem tableEndStep_follows (h : s.Reads (pre ++ [x]) q.lexer)
    (hx : (s.significant.drop pre.length).headD s.final = x) (hdepth : q.depth < 2 ^ 32) :
    Follows s st ((q.tryState .stream (expectTableEnd x.token)).getD
        (q.signalError .stream x.token (x.line, x.column)))
      (tableEndStep s.final q.depth q.noDefs pre (s.significant.drop pre.length)) := by
  rw [tableEndStep, hx, tryState, expectTableEnd]
  by_cases hclose : x.token = .curlyClose ∧ q.depth > 0
  · simp only [if_pos hclose]
    obtain ⟨_, _, _, hframe⟩ :=
      q.toParserState.setEvent_frame x.token .tableEnd (q.tokenText .stream)
    rw [hframe, tokenText_reads h]
    exact ⟨rfl, shallower_eq hclose.2 hdepth, rfl, rfl, h⟩
  · simp only [if_neg hclose]
    exact signalError_follows _ h x.token

/-- `expect_stream_end` on the token just read reports the end of the stream, or an error on that
token. -/
theorem streamEnd_follows (h : s.Reads [x] q.lexer) :
    Follows s st ((q.tryState .stream (expectStreamEnd x.token)).getD
        (q.signalError .stream x.token (x.line, x.column)))
      (if x.token = .eof then .moved .streamEnd q.depth q.noDefs x [x]
        else .failed x.token x []) := by
  have h' : s.Reads ([] ++ [x]) q.lexer := h
  rw [tryState, expectStreamEnd]
  rcases eq_or_ne x.token .eof with heof | heof
  · simp only [if_pos heof]
    exact setEvent_follows _ h' x.token .streamEnd
  · simp only [if_neg heof]
    exact signalError_follows _ h' x.token

/-- Behind one token more. -/
theorem drop_append_singleton (toks : List Lexeme) :
    toks.drop (pre ++ [x]).length = (toks.drop pre.length).tail := by
  rw [List.length_append, List.length_singleton, ← List.drop_drop, List.drop_one]

/-- A bracket before a token that is no key. -/
theorem expectNewEntry_bracket_none {key : Lexeme} {q₁ : Parser Stream} {pos : Nat × Nat}
    (hread : q.nextToken .stream = (key.report, q₁)) (hkey : keyEvent key.token = none) :
    q.expectNewEntry .stream .squareOpen pos = (false, (key.line, key.column), q₁) := by
  rw [expectNewEntry, if_neg (by simp), if_pos rfl]
  simp only [hread, Lexeme.report, hkey]

/-- A bracket before a key: the event of the key is set, and an error signalled if the token behind
it is no closing bracket. The result is `true` in both cases. -/
theorem expectNewEntry_bracket_some {key close : Lexeme} {q₁ q₂ : Parser Stream} {pos : Nat × Nat}
    {e : Event} (hread : q.nextToken .stream = (key.report, q₁))
    (hkey : keyEvent key.token = some e)
    (hclose : (q₁.setEvent .stream key.token e).nextToken .stream = (close.report, q₂)) :
    q.expectNewEntry .stream .squareOpen pos =
      (true, (close.line, close.column), if close.token = .squareClose then q₂
        else q₂.signalError .stream close.token (close.line, close.column)) := by
  rw [expectNewEntry, if_neg (by simp), if_pos rfl]
  simp only [hread, Lexeme.report, hkey, hclose]
  by_cases hc : close.token = .squareClose <;> simp [hc]

/-- The entry cases on the token just read do what `entryStep` says, in whichever of its branches. A
bracket that holds no key is tried as the end of a table too, and is none, so that the error is the
one signalled for it. -/
theorem entryStep_follows (h : s.Reads (pre ++ [x]) q.lexer)
    (hx : (s.significant.drop pre.length).headD s.final = x) (hdepth : q.depth < 2 ^ 32) :
    Follows s st (q.nextEntry .stream x.token (x.line, x.column))
      (entryStep s.final q.depth q.noDefs pre (s.significant.drop pre.length)) := by
  rw [nextEntry, entryStep, hx]
  rcases eq_or_ne x.token .name with hname | hname
  · rw [expectNewEntry, if_pos hname, if_pos hname]
    exact setEvent_follows _ h x.token .keyString
  rw [if_neg hname]
  rcases eq_or_ne x.token .squareOpen with hopen | hopen
  · rw [hopen, if_pos rfl, ← drop_append_singleton (x := x)]
    obtain ⟨q₁, hread, hreads, hstate⟩ := nextToken_reads h rfl
    generalize (s.significant.drop (pre ++ [x]).length).headD s.final = key at hread hreads
    cases hkey : keyEvent key.token with
    | none =>
      -- the bracket is tried again, and ends no table
      rw [expectNewEntry_bracket_none hread hkey]
      have htry : q₁.tryState .stream (expectTableEnd .squareOpen) = none := by
        simp [tryState, expectTableEnd]
      simp only [hkey, Bool.false_eq_true, if_false, htry]
      exact signalError_follows _ hreads .squareOpen
    | some e =>
      obtain ⟨hevent, hdepth', hdefs, htext, hreads'⟩ :=
        setEvent_follows st hreads key.token e
      obtain ⟨q₂, hclose, hreads₂, hstate₂⟩ := nextToken_reads hreads' rfl
      rw [expectNewEntry_bracket_some hread hkey hclose, ← drop_append_singleton (x := key)]
      simp only [hkey, if_true]
      generalize (s.significant.drop (pre ++ [x] ++ [key]).length).headD s.final = close at *
      rcases eq_or_ne close.token .squareClose with hc | hc
      · rw [if_pos hc, if_pos hc]
        refine ⟨?_, ?_, ?_, ?_, by simpa using hreads₂⟩ <;> rw [hstate₂]
        · exact hevent
        · exact hdepth'.trans (congrArg _ hstate)
        · exact hdefs.trans (congrArg _ hstate)
        · exact htext
      · rw [if_neg hc, if_neg hc]
        simpa using signalError_follows _ hreads₂ close.token
  · rw [expectNewEntry, if_neg hname, if_neg hopen]
    have hvalue := valueStep_follows st h hx
    have hend := tableEndStep_follows st h hx hdepth
    have hiff := tryValue_isSome q x.token
    rw [if_neg hopen]
    cases htry : q.tryState .stream (expectValue x.token) with
    | some q' =>
      rw [htry] at hvalue hiff
      rw [if_pos (hiff.mp rfl)]
      exact hvalue
    | none =>
      rw [htry] at hiff
      rw [if_neg (mt hiff.mpr nofun)]
      exact hend

/-! ## Definitions -/

/-- The loop of `expect_new_definition`: the semicolons and the token behind them are read, and no
other field is touched. By induction on the tokens. -/
theorem skipSemicolons_reads {toks : List Lexeme} : ∀ (pre : List Lexeme) {fuel : Nat} {x : Lexeme}
    {q : Parser Stream}, toks.length ≤ fuel → s.significant.drop pre.length = toks →
    toks.headD s.final = x → s.Reads (pre ++ [x]) q.lexer →
    ∃ q', skipSemicolons .stream (fuel + 1) x.token (x.line, x.column) q =
        (((toks.dropWhile (·.isSemicolon)).headD s.final).report, q') ∧
      s.Reads (pre ++ toks.takeWhile (·.isSemicolon) ++
        [(toks.dropWhile (·.isSemicolon)).headD s.final]) q'.lexer ∧
      q'.toParserState = q.toParserState := by
  induction toks with
  | nil =>
    rintro pre fuel x q hfuel htoks rfl h
    have hsemi : ¬ s.final.token = .semicolon := by
      rw [s.final_token]
      nofun
    rw [List.headD_nil] at h ⊢
    rw [skipSemicolons, if_neg hsemi]
    exact ⟨q, rfl, by simpa using h, rfl⟩
  | cons y toks ih =>
    rintro pre fuel x q hfuel htoks rfl h
    rw [List.headD_cons] at h ⊢
    rw [skipSemicolons]
    rcases eq_or_ne y.token .semicolon with hsemi | hsemi
    · obtain ⟨fuel, rfl⟩ : ∃ k, fuel = k + 1 := ⟨fuel - 1, by simp at hfuel; omega⟩
      have hdrop : s.significant.drop (pre ++ [y]).length = toks := by
        rw [drop_append_singleton, htoks, List.tail_cons]
      obtain ⟨q₁, hread, hreads, hstate⟩ := nextToken_reads h rfl
      rw [hdrop] at hread hreads
      obtain ⟨q', hskip, hreads', hstate'⟩ := ih _ (by simpa using hfuel) hdrop rfl hreads
      have hy : y.isSemicolon = true := by simp [Lexeme.isSemicolon, hsemi]
      rw [if_pos hsemi, hread, List.dropWhile_cons_of_pos hy, List.takeWhile_cons_of_pos hy]
      exact ⟨q', hskip, by simpa using hreads', hstate'.trans hstate⟩
    · have hy : ¬ y.isSemicolon = true := by simp [Lexeme.isSemicolon, hsemi]
      rw [if_neg hsemi, List.dropWhile_cons_of_neg hy, List.takeWhile_cons_of_neg hy]
      exact ⟨q, rfl, by simpa using h, rfl⟩

/-- `expect_new_definition` behind its loop over semicolons: a name is a definition, and anything
else is handed back with its position. -/
theorem expectNewDefinition_eq {y : Lexeme} {q' : Parser Stream} {token : Token} {pos : Nat × Nat}
    (hskip : skipSemicolons .stream (TokenSource.stream.limit q.lexer + 1) token pos q =
      (y.report, q')) :
    q.expectNewDefinition .stream token pos =
      if y.token = .name then (true, (y.line, y.column), q'.setEvent .stream y.token .defName)
      else (false, (y.line, y.column), q') := by
  rw [expectNewDefinition, hskip]
  rfl

/-- The definition cases on the token just read do what `definitionStep` says, the end of the input
being the caller's token. Where semicolons were skipped, the caller still tests the first of them
for the end of the input, which is why a stream cannot end behind one. -/
theorem definitionStep_follows (h : s.Reads [x] q.lexer) (hx : s.significant.headD s.final = x) :
    Follows s st (q.nextDefinition .stream x.token (x.line, x.column))
      (definitionStep s.final q.depth q.noDefs s.significant) := by
  have hlen : s.significant.length ≤ q.lexer.rest.length + 1 := by
    have hsig := congrArg List.length h.significant_eq
    have hle : q.lexer.significant.length ≤ q.lexer.rest.length := List.length_filter_le _ _
    rw [List.length_drop, List.length_singleton] at hsig
    omega
  obtain ⟨q', hskip, hreads, hstate⟩ :=
    skipSemicolons_reads [] hlen rfl hx h
  rw [List.nil_append] at hreads
  rw [nextDefinition, expectNewDefinition_eq hskip, definitionStep]
  generalize hy : (s.significant.dropWhile (·.isSemicolon)).headD s.final = y at hreads
  rcases eq_or_ne y.token .name with hname | hname
  · rw [if_pos hname, if_pos hname, if_pos rfl, ← hstate]
    exact setEvent_follows _ hreads y.token .defName
  rw [if_neg hname, if_neg hname, ← hstate]
  simp only [Bool.false_eq_true, if_false]
  rcases List.eq_nil_or_concat (s.significant.takeWhile (·.isSemicolon)) with hsemis | hsemis
  · -- no semicolon: the caller's token is the one just read
    have hxy : x = y := by
      rw [← hx, ← hy]
      have := List.takeWhile_append_dropWhile (p := (·.isSemicolon)) (l := s.significant)
      rw [hsemis, List.nil_append] at this
      rw [this]
    subst hxy
    rw [hsemis, List.nil_append] at hreads
    simpa [hsemis] using streamEnd_follows _ hreads
  · have hne : s.significant.takeWhile (·.isSemicolon) ≠ [] := by
      obtain ⟨l, z, hsemis⟩ := hsemis
      rw [hsemis, List.concat_eq_append]
      simp
    have hsemi : x.token = .semicolon := by
      rw [← hx]
      cases hsig : s.significant with
      | nil => exact absurd (by rw [hsig]; rfl) hne
      | cons z toks =>
        rw [hsig] at hne
        by_contra hz
        refine hne (List.takeWhile_cons_of_neg ?_)
        simpa [Lexeme.isSemicolon] using hz
    have htry : q'.tryState .stream (expectStreamEnd x.token) = none := by
      rw [hsemi]
      simp [tryState, expectStreamEnd]
    rw [if_neg (fun h => hne h.1), if_neg hne, htry, hsemi]
    exact signalError_follows _ hreads .semicolon

/-! ## `ELTN_Parser_next` -/

/-- The cases that expect an equals sign, on the token just read, do what `keyStep` says. -/
theorem keyStep_follows (h : s.Reads [x] q.lexer) (hx : s.significant.headD s.final = x) :
    Follows s st (q.nextValue .stream x.token (x.line, x.column))
      (keyStep s.final q.depth q.noDefs s.significant) := by
  rw [nextValue, keyStep, hx]
  rcases eq_or_ne x.token .equals with heq | heq
  · have hdrop : s.significant.drop [x].length = s.significant.tail := List.drop_one
    obtain ⟨q₁, hread, hreads, hstate⟩ := nextToken_reads h rfl
    have hvalue := valueStep_follows st hreads rfl
    rw [if_neg (by simpa using heq), if_pos heq, hread, ← hstate]
    rw [hdrop] at hvalue ⊢
    exact hvalue
  · rw [if_pos heq, if_neg heq]
    exact signalError_follows _ h x.token

/-- The cases behind a value, on the token just read, do what `afterValueStep` says. -/
theorem afterValueStep_follows (h : s.Reads [x] q.lexer) (hx : s.significant.headD s.final = x)
    (hdepth : q.depth < 2 ^ 32) :
    Follows s st (q.nextAfterValue .stream x.token (x.line, x.column))
      (afterValueStep s.final q.depth q.noDefs s.significant) := by
  rw [nextAfterValue, afterValueStep, hx]
  split
  · split
    · exact definitionStep_follows _ h hx
    · exact streamEnd_follows _ h
  split
  · have hdrop : s.significant.drop [x].length = s.significant.tail := List.drop_one
    obtain ⟨q₁, hread, hreads, hstate⟩ := nextToken_reads h rfl
    have hentry := entryStep_follows st hreads rfl (hstate ▸ hdepth)
    rw [hread, ← hstate]
    rw [hdrop] at hentry ⊢
    exact hentry
  · exact tableEndStep_follows _ h hx hdepth

/-- A table at the start of the input is reported, and no definition is expected from then on. -/
theorem tableStart_first (h : s.Reads [x] q.lexer) (hx : s.significant.headD s.final = x) :
    Follows s st (((q.tryState .stream (expectTableStart x.token)).map fun q =>
        q.update fun s => { s with noDefs := true }).getD
        (q.nextDefinition .stream x.token (x.line, x.column)))
      (step s.final q.depth q.noDefs s.significant .streamStart) := by
  rw [step, hx, tryState, expectTableStart]
  rcases eq_or_ne x.token .curlyOpen with hopen | hopen
  · rw [if_pos hopen, if_pos hopen]
    have h' : s.Reads ([] ++ [x]) q.lexer := h
    exact tableStart_follows _ h' true
  · rw [if_neg hopen, if_neg hopen]
    exact definitionStep_follows _ h hx

/-- **One call of `ELTN_Parser_next` does what `step` says**: the event, the text, the depth and the
position are those of its outcome, and so are the tokens read. The token is read first, then the
last event chooses the case, as in the `switch` of the source. -/
theorem next_follows (p : Parser Stream) (hp : p.event ≠ .comment) (hdepth : p.depth < 2 ^ 32) :
    Follows p.lexer p.toParserState (p.next .stream)
      (step p.lexer.final p.depth p.noDefs p.lexer.significant p.event) := by
  obtain ⟨q, hread, hreads, hstate⟩ := nextToken_reads
    (q := p.update fun s => { s with lastEvent := s.event }) (.refl p.lexer) rfl
  rw [List.nil_append, List.length_nil, List.drop_zero] at hreads
  rw [List.length_nil, List.drop_zero] at hread
  have hlast : q.lastEvent = p.event := by rw [hstate]; rfl
  have hd : q.depth = p.depth := by rw [hstate]; rfl
  have hn : q.noDefs = p.noDefs := by rw [hstate]; rfl
  have hhalt : q.toParserState = { p.toParserState with lastEvent := p.event } := hstate
  rw [← hd] at hdepth
  rw [next, if_pos hp, hread, ← hd, ← hn]
  dsimp only [Lexeme.report]
  rw [hlast]
  cases hev : p.event with
  | streamStart => exact tableStart_first _ hreads rfl
  | comment => exact absurd hev hp
  | defName => exact keyStep_follows _ hreads rfl
  | keyString => exact keyStep_follows _ hreads rfl
  | keyNumber => exact keyStep_follows _ hreads rfl
  | keyInteger => exact keyStep_follows _ hreads rfl
  | tableEnd => exact afterValueStep_follows _ hreads rfl hdepth
  | valueString => exact afterValueStep_follows _ hreads rfl hdepth
  | valueNumber => exact afterValueStep_follows _ hreads rfl hdepth
  | valueInteger => exact afterValueStep_follows _ hreads rfl hdepth
  | valueTrue => exact afterValueStep_follows _ hreads rfl hdepth
  | valueFalse => exact afterValueStep_follows _ hreads rfl hdepth
  | valueNil => exact afterValueStep_follows _ hreads rfl hdepth
  | tableStart =>
    have hreads : p.lexer.Reads ([] ++ [_]) q.lexer := hreads
    exact entryStep_follows _ hreads rfl hdepth
  | streamEnd => exact hhalt
  | error => exact hhalt

end

end Parser

end Eltn
