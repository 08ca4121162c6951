import Eltn.Parser.Memory
import Eltn.Parser.Order

/-!
# Runs of the parser in memory

Behind the event that a call sets it reports an error at most (`Code.next_obeys`). So a request that
is refused, which replaces the event by an error, stays the last word of its call; the calls behind
it read one token and change nothing else.

With the invariant of `Holds` this gives what a caller sees of the allocator over any number of
calls with `ELTN_Parser_free` behind them: which blocks are left, and which of them went back to
another allocator than they came from.

All of it asks that `malloc` refuses nothing, with a pool or without one: `ELTN_new_string` writes
through the `NULL` of a `malloc` that is refused. Only the allocator of a pool may refuse requests.
-/

namespace Eltn

/-! ## The text -/

namespace Parser

section
variable {τ : Type} {ts : TokenSource τ} {p : Parser τ}

/-- Behind `set_event` there is a text: the text of a token was captured. -/
theorem setEvent_text_ne (token : Token) (e : Event) : (p.setEvent ts token e).text ≠ none := by
  rw [setEvent, update, ParserState.setEvent_text]
  exact Option.some_ne_none _

/-- Behind `signal_error` there is one as well. -/
theorem signalError_text_ne (token : Token) (pos : Nat × Nat) :
    (p.signalError ts token pos).text ≠ none := by
  obtain ⟨_, _, _, hframe⟩ := p.toParserState.signalError_frame token (p.tokenText ts) pos.1 pos.2
  rw [signalError, update, hframe]
  exact Option.some_ne_none _

/-- The first call captures a token, so that there is a text from then on. -/
theorem first_text_ne (s : τ) : ((Parser.new s).next ts).text ≠ none := by
  obtain ⟨q, token, pos, hnext⟩ : ∃ (q : Parser τ) (token : Token) (pos : Nat × Nat),
      (Parser.new s).next ts = ((q.tryState ts (ParserState.expectTableStart token)).map
        fun self => self.update fun s => { s with noDefs := true }).getD
          (q.nextDefinition ts token pos) := ⟨_, _, _, rfl⟩
  rw [hnext, tryState, ParserState.expectTableStart]
  split
  · exact setEvent_text_ne token .tableStart
  rw [Option.map_none, Option.map_none, Option.getD_none, nextDefinition, expectNewDefinition]
  split
  · exact setEvent_text_ne _ .defName
  rw [if_neg Bool.false_ne_true, tryState, ParserState.expectStreamEnd]
  split
  · exact setEvent_text_ne token .streamEnd
  · exact signalError_text_ne token _

/-- No operation of the parser takes the text away. -/
theorem handler_text_ne (o : Operation) (p : Parser τ) (h : p.text ≠ none) :
    ∃ r t, handler ts o p = some (r, t) ∧ t.text ≠ none := by
  cases o with
  | setEvent token e => exact ⟨_, _, rfl, setEvent_text_ne token e⟩
  | signalError token line column => exact ⟨_, _, rfl, signalError_text_ne token (line, column)⟩
  | shallower =>
    have hpop : p.toParserState.pop.text = p.toParserState.text := by rw [ParserState.pop]
    have hcall : handler ts .shallower p = some ((), { p with toParserState := p.pop }) := by
      rw [handler, update]
    rw [hcall]
    generalize p.toParserState.pop = st at hpop
    exact ⟨(), { p with toParserState := st }, rfl, hpop.trans_ne h⟩
  | _ => exact ⟨_, _, rfl, h⟩

/-- The source stays in order over any number of calls. -/
theorem ok_after {s : τ} (hok : ts.Ok s) (n : Nat) : ts.Ok ((Parser.new s).after ts n).lexer := by
  have hsim : Sim ts ts (Parser.new s) (Parser.new s) := ⟨rfl, hok, hok, rfl, rfl, rfl⟩
  exact (hsim.after n).lexer.ok

/-- From the first call on there is a text. So there is something for `ELTN_Parser_free` to leave
behind. -/
theorem after_text_ne {s : τ} (hok : ts.Ok s) (n : Nat) :
    ((Parser.new s).after ts (n + 1)).text ≠ none := by
  induction n with
  | zero => exact first_text_ne s
  | succ n ih =>
    have hsucc : (Parser.new s).after ts (n + 2) = ((Parser.new s).after ts (n + 1)).next ts :=
      Function.iterate_succ_apply' _ _ _
    obtain ⟨_, t, hrun, ht⟩ := Program.run_keeps (fun o p => handler_text_ne o p) (Code.next _) ih
    rw [run_next (enough_of_ok (ok_after hok (n + 1)))] at hrun
    cases hrun
    rwa [hsucc]

end

end Parser

/-! ## Calls -/

namespace HeapParser

section
variable {τ : Type} {ts : TokenSource τ} {custom : Bool} {q : HeapParser τ}

/-- Behind a refusal there is an error, for good: the parser holds its blocks and says so in its
event. -/
structure Failed (custom : Bool) (q : HeapParser τ) : Prop where
  holds : Holds custom q
  exhausted : q.exhausted = true
  event : q.event = .error

/-- **One operation** on the heap, where memory may be refused: it has a result, and the blocks are
held as before. -/
theorem handler_keeps (ts : TokenSource τ) (o : Operation) (q : HeapParser τ)
    (h : Holds custom q) :
    ∃ r t, handler ts o q = some (r, t) ∧ Holds custom t := by
  obtain ⟨r, t, hcall, ht, -⟩ := handler_holds ts o h
  exact ⟨r, t, hcall, ht⟩

/-- An operation other than `set_event` leaves a failure, as none of them takes the error back.
Signalling an error again sets the same event, or fails for want of memory once more. -/
theorem Failed.handler {o : Operation} {r : o.Reply} {t : HeapParser τ} (h : Failed custom q)
    (ho : ∀ token e, o ≠ .setEvent token e) (hcall : handler ts o q = some (r, t)) :
    Failed custom t := by
  cases o with
  | setEvent token e => exact absurd rfl (ho token e)
  | signalError token line column =>
    obtain ⟨t', hset, ht, hcases⟩ := signalError_yields ts h.holds token line column
    rw [HeapParser.handler, hset] at hcall
    obtain ⟨-, rfl⟩ := Prod.mk.inj (Option.some.inj hcall)
    rcases hcases with ⟨hexhausted, herror⟩ | ⟨hexhausted, hmodel⟩
    · exact ⟨ht, hexhausted, herror⟩
    · refine ⟨ht, hexhausted.trans h.exhausted, ?_⟩
      obtain ⟨_, _, _, hframe⟩ := q.toParser.toParserState.signalError_frame token
        (q.toParser.tokenText ts) line column
      calc t'.event = (q.toParser.signalError ts token (line, column)).event :=
            congrArg (·.event) hmodel
        _ = .error := congrArg ParserState.event hframe
  | _ =>
    obtain ⟨-, rfl⟩ := Prod.mk.inj (Option.some.inj hcall)
    exact ⟨h.holds.congr rfl rfl rfl rfl rfl rfl rfl, h.exhausted, h.event⟩

/-- Where a call stands: no request was refused, or the event was set and is an error. -/
def Fate (custom : Bool) (a : Progress) (q : HeapParser τ) : Prop :=
  (Holds custom q ∧ q.exhausted = false) ∨ Failed custom q ∧ a.isSet = true

/-- The first refusal is that of an operation that sets the event; what the order allows behind it
leaves the error. -/
theorem Fate.handler {a : Progress} {o : Operation} {r : o.Reply} {t : HeapParser τ}
    (h : Fate custom a q) (hallows : Code.order.Allows a o)
    (hcall : handler ts o q = some (r, t)) : Fate custom (Code.order.next a o r) t := by
  rcases h with ⟨hholds, hfresh⟩ | ⟨hfailed, hset⟩
  · cases o with
    | setEvent token e =>
      obtain ⟨t', hset, ht, hcases⟩ := setEvent_yields ts hholds token e
      rw [HeapParser.handler, hset] at hcall
      obtain ⟨-, rfl⟩ := Prod.mk.inj (Option.some.inj hcall)
      rcases hcases with ⟨hexhausted, herror⟩ | ⟨hexhausted, -⟩
      · exact .inr ⟨⟨ht, hexhausted, herror⟩, rfl⟩
      · exact .inl ⟨ht, hexhausted.trans hfresh⟩
    | signalError token line column =>
      obtain ⟨t', hset, ht, hcases⟩ := signalError_yields ts hholds token line column
      rw [HeapParser.handler, hset] at hcall
      obtain ⟨-, rfl⟩ := Prod.mk.inj (Option.some.inj hcall)
      rcases hcases with ⟨hexhausted, herror⟩ | ⟨hexhausted, -⟩
      · exact .inr ⟨⟨ht, hexhausted, herror⟩, rfl⟩
      · exact .inl ⟨ht, hexhausted.trans hfresh⟩
    | _ =>
      obtain ⟨-, rfl⟩ := Prod.mk.inj (Option.some.inj hcall)
      exact .inl ⟨hholds.congr rfl rfl rfl rfl rfl rfl rfl, hfresh⟩
  · refine .inr ⟨hfailed.handler ?_ hcall, ?_⟩
    · rintro token e rfl
      obtain ⟨rfl, -⟩ := hallows
      cases hset
    · cases o <;> first | exact hset | rfl

/-- **One call** on a parser that holds its blocks has a result, which holds its own: that of the
model, or a failure behind a refusal. -/
theorem next_holds (h : Holds custom q) (hfresh : q.exhausted = false) (hok : ts.Ok q.lexer) :
    ∃ t, q.next ts = some t ∧ (Failed custom t ∨
      Holds custom t ∧ t.exhausted = false ∧ t.toParser = q.toParser.next ts) := by
  obtain ⟨_, t, hrun, ht⟩ := Program.run_until
    (R := fun q p => Holds custom q ∧ q.exhausted = false ∧ q.toParser = p)
    (E := fun q => Holds custom q ∧ q.exhausted = true)
    (fun o q p ⟨hholds, hfresh, hmodel⟩ => by
      obtain ⟨r, t, hcall, ht, hcases⟩ := handler_holds ts o hholds
      refine ⟨r, t, hcall, hcases.imp (fun h => ⟨ht, h⟩) fun ⟨hsame, hcall'⟩ => ?_⟩
      exact ⟨t.toParser, hmodel ▸ hcall', ht, hsame.trans hfresh, rfl⟩)
    (fun o q ⟨hholds, hexhausted⟩ => by
      obtain ⟨r, t, hcall, ht, hcases⟩ := handler_holds ts o hholds
      exact ⟨r, t, hcall, ht, hcases.elim id fun h => h.1.trans hexhausted⟩)
    (Code.next (ts.limit q.lexer + 1)) ⟨h, hfresh, rfl⟩
  refine ⟨t, by rw [next, hrun]; rfl, ?_⟩
  rcases ht with ⟨-, hexhausted⟩ | ⟨p, hrun', hholds, hsame, hmodel⟩
  · have hstart : Fate custom ⟨none, false⟩ q := .inl ⟨h, hfresh⟩
    obtain ⟨_, -, ⟨-, hnot⟩ | ⟨hfailed, -⟩⟩ := Program.run_obeys
      (fun a o s r t hs hallows hcall => hs.handler hallows hcall) (Code.next_obeys _) hstart hrun
    · rw [hexhausted] at hnot
      cases hnot
    · exact .inl hfailed
  · refine .inr ⟨hholds, hsame, ?_⟩
    have henough : Parser.Enough ts (ts.limit q.lexer + 1) q.toParser :=
      (Parser.enough_of_ok hok).mono (Nat.le_succ_of_le (ts.lt_limit hok))
    cases (Parser.run_next henough).symm.trans hrun'
    exact hmodel

/-- Behind a refusal a call reads tokens and does nothing else, since the `switch` does nothing on
an error. -/
theorem next_failed (ts : TokenSource τ) (h : Failed custom q) :
    ∃ t, q.next ts = some t ∧ Failed custom t := by
  obtain ⟨read, t, hrun, -⟩ := Program.run_keeps (handler_keeps ts)
    (Code.nextToken (ts.limit q.lexer + 1))
    (h.holds.congr rfl rfl rfl rfl rfl rfl rfl : Holds custom { q with lastEvent := .error })
  have hread : ∀ (o : Operation) (s : HeapParser τ) (r : o.Reply) (t : HeapParser τ),
      Failed custom s ∧ s.lastEvent = .error → o = .lexerNextToken →
      handler ts o s = some (r, t) → Failed custom t ∧ t.lastEvent = .error := by
    rintro _ s r t ⟨hs, hlast⟩ rfl hcall
    refine ⟨hs.handler (fun _ _ h => by cases h) hcall, ?_⟩
    cases hcall
    exact hlast
  have hfirst : Failed custom { q with lastEvent := .error } :=
    ⟨h.holds.congr rfl rfl rfl rfl rfl rfl rfl, h.exhausted, h.event⟩
  obtain ⟨-, -, hfailed, hlast⟩ := Program.run_obeys
    (J := fun _ t => Failed custom t ∧ t.lastEvent = .error) (fun _ => hread)
    (Code.skipComments_readsOnly _) ⟨hfirst, rfl⟩ hrun
  refine ⟨t, ?_, hfailed⟩
  have hevent : q.event ≠ .comment := by
    rw [h.event]
    exact fun h => by cases h
  have hstart : Code.startCall.run (handler ts) q = some ((), { q with lastEvent := .error }) := by
    rw [Code.startCall, Program.run_bind, Program.run_op, handler, Option.bind_some,
      Program.run_ite, if_pos hevent, Program.run_op, handler, h.event]
  rw [next, Code.next, Program.run_bind, hstart, Option.bind_some, Program.run_bind, hrun,
    Option.bind_some, Program.run_bind, Program.run_op, handler, Option.bind_some, hlast]
  rfl

/-! ## Runs -/

/-- The state behind a number of calls: a failure, or the parser of the model. -/
def Follows (custom : Bool) (p : Parser τ) (q : HeapParser τ) : Prop :=
  Failed custom q ∨ Holds custom q ∧ q.exhausted = false ∧ q.toParser = p

/-- A parser that follows the model holds its blocks, whether memory was refused or not. -/
theorem Follows.holds {p : Parser τ} (h : Follows custom p q) : Holds custom q :=
  h.elim (·.holds) (·.1)

/-- **Any number of calls** from a new parser follow those of the model, up to a refusal. By
induction on the number of calls. -/
theorem after_follows (ts : TokenSource τ) {lexer : τ} (hok : ts.Ok lexer) {memory : Memory}
    (hledger : memory.Ledger [] [] 0) (n : Nat) : ∃ q, after ts lexer memory n = some q ∧
      Follows memory.custom ((Parser.new lexer).after ts n) q := by
  induction n with
  | zero =>
    refine ⟨_, rfl, .inr ⟨⟨rfl, hledger, fun a ha => ?_, fun a ha => ?_, fun h => ?_⟩, rfl, rfl⟩⟩
    · cases ha
    · cases ha
    · cases h
  | succ n ih =>
    obtain ⟨q, hcall, hfailed | ⟨hholds, hfresh, hmodel⟩⟩ := ih
    · obtain ⟨t, hnext, ht⟩ := next_failed ts hfailed
      exact ⟨t, by rw [after, hcall, Option.bind_some, hnext], .inl ht⟩
    · have hlexer : ts.Ok q.toParser.lexer := hmodel ▸ Parser.ok_after hok n
      obtain ⟨t, hnext, ht | ⟨ht, hsame, hmodel'⟩⟩ := next_holds hholds hfresh hlexer
      · exact ⟨t, by rw [after, hcall, Option.bind_some, hnext], .inl ht⟩
      · refine ⟨t, by rw [after, hcall, Option.bind_some, hnext], .inr ⟨ht, hsame, ?_⟩⟩
        rw [hmodel', hmodel]
        exact (Function.iterate_succ_apply' _ _ _).symm

/-- Memory without blocks, on a `malloc` that never refuses. -/
theorem ledger_fresh (custom : Bool) {answers : Origin → Nat → Bool} (junk : Nat → UInt8)
    (hmalloc : ∀ i, answers .library i = true) :
    (Memory.fresh custom answers junk).Ledger [] [] 0 where
  answers := hmalloc
  owns := ⟨[], Heap.owns_empty, fun _ => rfl⟩
  library a ha := by cases ha
  crossed := by rw [ite_self]; rfl

/-- `ELTN_Parser_free` frees the string, and the text alone is left of the blocks in use. -/
theorem free_holds (h : Holds custom q) :
    ∃ m, q.free = some m ∧ m.Ledger q.text.toList [] q.unquoted ∧
      Memory.Frame q.text.toList q.memory m := by
  obtain ⟨m, hfree, hledger, hframe⟩ := h.ledger.free
  exact ⟨m, hfree, hledger, hframe.mono (by simp)⟩

/-- The tokens of `a = "x"`, whose value is unescaped into a block of the pool. -/
def quoted : Stream where
  rest := [
    { token := .name, text := [0x61], line := 1, column := 1 },
    { token := .equals, text := [0x3D], line := 1, column := 3 },
    { token := .string, text := [0x22, 0x78, 0x22], line := 1, column := 5 }]
  final := { token := .eof, line := 1, column := 8 }
  token_ne := by decide
  final_token := rfl

/-- The tokens of `a = [[x]]`, whose value is copied to a block of the library. -/
def bracketed : Stream where
  rest := [
    { token := .name, text := [0x61], line := 1, column := 1 },
    { token := .equals, text := [0x3D], line := 1, column := 3 },
    { token := .longString, text := [0x5B, 0x5B, 0x78, 0x5D, 0x5D], line := 1, column := 5 }]
  final := { token := .eof, line := 1, column := 10 }
  token_ne := by decide
  final_token := rfl

/-- **No call uses memory wrongly**, whatever the allocator of a pool refuses, as long as `malloc`
refuses nothing (`hmalloc`). Any number of calls of `ELTN_Parser_next`, and `ELTN_Parser_free`
behind them, reach outside of no block, use none that was freed and free none twice. Until a request
of the parser is refused it is the parser of the model, and from then on it reports an error; where
the event is a number, there is a string for `strtol`. -/
theorem after_safe (ts : TokenSource τ) {s : τ} (hok : ts.Ok s) (custom : Bool)
    {answers : Origin → Nat → Bool} (hmalloc : ∀ i, answers .library i = true)
    (junk : Nat → UInt8) (n : Nat) : ∃ q m,
    after ts s (.fresh custom answers junk) n = some q ∧ q.free = some m ∧
      (q.exhausted = true → custom = true ∧ q.event = .error) ∧
      (q.exhausted = false → q.toParser = (Parser.new s).after ts n) ∧
      (q.event.isNumber = true → ∃ block, q.memory.bytes q.string = some block ∧
        Guarded.cstring block = some block) := by
  obtain ⟨q, hcall, hfollows⟩ := after_follows ts hok (ledger_fresh custom junk hmalloc) n
  obtain ⟨m, hfree, -⟩ := free_holds hfollows.holds
  refine ⟨q, m, hcall, hfree, fun hexhausted => ?_, fun hfresh => ?_, fun hnumber => ?_⟩
  · rcases hfollows with h | ⟨-, hfresh, -⟩
    · exact ⟨h.holds.refused hexhausted, h.event⟩
    · rw [hexhausted] at hfresh
      cases hfresh
  · rcases hfollows with h | ⟨-, -, hmodel⟩
    · rw [h.exhausted] at hfresh
      cases hfresh
    · exact hmodel
  · rcases hfollows with h | ⟨-, -, hmodel⟩
    · rw [h.event] at hnumber
      cases hnumber
    · obtain ⟨q', -, heq, -, -, hstring⟩ := Guarded.after_block ts s n
      have hself : q'.toParser = q.toParser := heq.trans hmodel.symm
      have hblock : Guarded.cstring (q.toParser.string.getD []) =
          some (q.toParser.string.getD []) := by
        rw [← hself]
        exact hstring (by rw [hself]; exact hnumber)
      rcases hbytes : q.toParser.string with _ | block
      · rw [hbytes] at hblock
        cases hblock
      · rw [hbytes] at hblock
        exact ⟨block, hbytes, hblock⟩

/-- The document `a = "x"` on a pool that refuses its second request: the value is an error. -/
theorem after_safe_example : ∃ q m,
    after .stream quoted (.fresh true (fun o i => o = .library || i ≠ 1) fun _ => 0xFF) 2 = some q ∧
      q.free = some m ∧ (q.exhausted = true → true = true ∧ q.event = .error) ∧
      (q.exhausted = false → q.toParser = (Parser.new quoted).after .stream 2) ∧
      (q.event.isNumber = true → ∃ block, q.memory.bytes q.string = some block ∧
        Guarded.cstring block = some block) :=
  after_safe .stream trivial true (fun _ => rfl) _ 2

/-- **One block leaks.** Without a pool every request goes to `malloc`. Where that refuses nothing
(`hmalloc`), the blocks left behind `ELTN_Parser_free` are the text of the last token and no other;
there is none before the first call. -/
theorem free_leaks (ts : TokenSource τ) {s : τ} (hok : ts.Ok s)
    {answers : Origin → Nat → Bool} (hmalloc : ∀ i, answers .library i = true)
    (junk : Nat → UInt8) (n : Nat) : ∃ q m,
    after ts s (.fresh false answers junk) n = some q ∧ q.free = some m ∧
      m.heap.Owns q.text.toList ∧ (q.text = none ↔ n = 0) ∧ ∀ a ∈ q.text, m.heap.get a =
        some ⟨.library, ((Parser.new s).after ts n).textValue ++ [0]⟩ := by
  obtain ⟨q, hcall, hfollows⟩ := after_follows ts hok (ledger_fresh false junk hmalloc) n
  obtain ⟨m, hfree, ⟨-, ⟨lost, howns, hlost⟩, -, -⟩, hframe⟩ := free_holds hfollows.holds
  obtain ⟨hholds, -, hmodel⟩ : Holds false q ∧ q.exhausted = false ∧
      q.toParser = (Parser.new s).after ts n :=
    hfollows.resolve_left fun h => by cases h.holds.refused h.exhausted
  obtain rfl := hlost (hframe.custom.trans hholds.custom_eq)
  rw [List.append_nil, List.append_nil] at howns
  refine ⟨q, m, hcall, hfree, howns, ⟨fun hnone => ?_, ?_⟩, fun a ha => ?_⟩
  · rcases n with _ | n
    · rfl
    · refine absurd ?_ (Parser.after_text_ne hok n)
      rw [← hmodel, toParser, hnone]
      rfl
  · rintro rfl
    cases hcall
    rfl
  · obtain ⟨src, hget, hlen⟩ := hholds.text a ha
    have htext : ((Parser.new s).after ts n).text = some src := by
      rw [← hmodel, toParser, show q.text = some a from ha, bytes_of_get hget, Option.map_some,
        ← hlen, List.take_left]
    rw [hframe.agree a (Option.mem_toList.mpr ha), hget, ParserState.textValue, htext,
      Option.getD_some]

/-- Behind the document `a = "x"` the text of its last token is left. -/
theorem free_leaks_example : ∃ q m,
    after .stream quoted (.fresh false (fun _ _ => true) fun _ => 0xFF) 2 = some q ∧
      q.free = some m ∧ m.heap.Owns q.text.toList ∧ (q.text = none ↔ 2 = 0) ∧ ∀ a ∈ q.text,
        m.heap.get a =
          some ⟨.library, ((Parser.new quoted).after .stream 2).textValue ++ [0]⟩ :=
  free_leaks .stream trivial (fun _ => rfl) _ 2

/-- **Long strings cross over.** Each string that was made by `ELTN_unquote_long_string` came from
`malloc`, which refuses nothing (`hmalloc`), and is handed to the allocator of the pool once; no
other block is, whatever that allocator refuses. -/
theorem free_crosses (ts : TokenSource τ) {s : τ} (hok : ts.Ok s) (custom : Bool)
    {answers : Origin → Nat → Bool} (hmalloc : ∀ i, answers .library i = true)
    (junk : Nat → UInt8) (n : Nat) : ∃ q m,
    after ts s (.fresh custom answers junk) n = some q ∧ q.free = some m ∧
      m.crossed = if custom then q.unquoted else 0 := by
  obtain ⟨q, hcall, hfollows⟩ := after_follows ts hok (ledger_fresh custom junk hmalloc) n
  obtain ⟨m, hfree, hledger, hframe⟩ := free_holds hfollows.holds
  have hcustom : m.custom = custom := hframe.custom.trans hfollows.holds.custom_eq
  exact ⟨q, m, hcall, hfree, hcustom ▸ hledger.crossed⟩

/-- The long string of the document `a = [[x]]` crosses over. -/
theorem free_crosses_example : ∃ q m,
    after .stream bracketed (.fresh true (fun _ _ => true) fun _ => 0xFF) 2 = some q ∧
      q.free = some m ∧ m.crossed = if true then q.unquoted else 0 :=
  free_crosses .stream trivial true (fun _ => rfl) _ 2

end

end HeapParser

end Eltn
