import Eltn.Parser.Run

/-!
# The parser on different sources of tokens

A parser sees its source through the tokens that it delivers and their texts. Sources that still
deliver the same (`TokenSource.Sim`) take the parser through the same states (`Parser.Sim.after`).
-/

namespace Eltn

/-- Two sources deliver the same tokens from here on, and hold the same token. How they do it may
differ. -/
structure TokenSource.Sim {τ τ' : Type} (ts : TokenSource τ) (ts' : TokenSource τ') (s : τ)
    (s' : τ') : Prop where
  ok : ts.Ok s
  ok' : ts'.Ok s'
  lexemes_eq : ts.lexemes s = ts'.lexemes s'
  final_eq : ts.final s = ts'.final s'
  string_eq : ts.tokenString s = ts'.tokenString s'

section
variable {τ τ' : Type} {ts : TokenSource τ} {ts' : TokenSource τ'} {s : τ} {s' : τ'}
  {fuel fuel' : Nat}

/-! ## Reading -/

/-- The next token is the same on both sides, and so are those behind it. -/
theorem TokenSource.Sim.nextToken (h : TokenSource.Sim ts ts' s s') :
    (ts.nextToken s).1 = (ts'.nextToken s').1 ∧
      TokenSource.Sim ts ts' (ts.nextToken s).2 (ts'.nextToken s').2 where
  left := by rw [ts.nextToken_fst h.ok, ts'.nextToken_fst h.ok', h.lexemes_eq, h.final_eq]
  right :=
    { ok := ts.ok_nextToken h.ok
      ok' := ts'.ok_nextToken h.ok'
      lexemes_eq := by
        rw [ts.lexemes_nextToken h.ok, ts'.lexemes_nextToken h.ok', h.lexemes_eq]
      final_eq := by rw [ts.final_nextToken h.ok, ts'.final_nextToken h.ok', h.final_eq]
      string_eq := by
        rw [ts.tokenString_nextToken h.ok, ts'.tokenString_nextToken h.ok', h.lexemes_eq,
          h.final_eq] }

/-- A token other than the end of the input is one less, which is why the loops end. -/
theorem length_nextToken (hs : ts.Ok s) (h : (ts.nextToken s).1.1 ≠ .eof) :
    (ts.lexemes (ts.nextToken s).2).length + 1 = (ts.lexemes s).length := by
  have hfst := ts.nextToken_fst hs
  rw [ts.lexemes_nextToken hs]
  cases hl : ts.lexemes s with
  | nil =>
    rw [hl, List.headD_nil] at hfst
    rw [hfst, Lexeme.report_fst] at h
    exact absurd (ts.final_token hs) h
  | cons x l => rfl

namespace Parser

/-- The loop of `next_token` takes as many turns as it needs, and gives the same token on both
sides. By induction on the turns. -/
theorem skipComments_sim (fuel : Nat) : ∀ {fuel' : Nat} {s : τ} {s' : τ'},
    TokenSource.Sim ts ts' s s' → (ts.lexemes s).length < fuel → (ts.lexemes s).length < fuel' →
    (skipComments ts fuel s).1 = (skipComments ts' fuel' s').1 ∧
      TokenSource.Sim ts ts' (skipComments ts fuel s).2 (skipComments ts' fuel' s').2 := by
  induction fuel with
  | zero => exact fun _ hfuel => absurd hfuel (Nat.not_lt_zero _)
  | succ fuel ih =>
    intro fuel' s s' h hfuel hfuel'
    obtain ⟨fuel', rfl⟩ : ∃ k, fuel' = k + 1 := ⟨fuel' - 1, by omega⟩
    obtain ⟨htok, hnext⟩ := h.nextToken
    rw [skipComments, skipComments]
    rw [← htok]
    split
    · next hcomment =>
      have hne : (ts.nextToken s).1.1 ≠ .eof := by
        rcases hcomment with h | h <;> rw [h] <;> simp
      have hlen := length_nextToken h.ok hne
      exact ih hnext (by omega) (by omega)
    · exact ⟨htok, hnext⟩

/-- The loop of `next_token` leaves fewer tokens, unless it reaches the end of the input, which
stays there. -/
theorem length_skipComments (fuel : Nat) : ∀ {s : τ}, ts.Ok s →
    (skipComments ts fuel s).1.1 ≠ .eof →
    (ts.lexemes (skipComments ts fuel s).2).length < (ts.lexemes s).length := by
  induction fuel with
  | zero =>
    intro s hs h
    have hlen := length_nextToken hs h
    exact Nat.lt_of_succ_le hlen.le
  | succ fuel ih =>
    intro s hs h
    rw [skipComments] at h ⊢
    split at h
    · next hcomment =>
      have hne : (ts.nextToken s).1.1 ≠ .eof := by
        rcases hcomment with h | h <;> rw [h] <;> simp
      have hlen := length_nextToken hs hne
      rw [if_pos hcomment]
      have := ih (ts.ok_nextToken hs) h
      omega
    · next hcomment =>
      have hlen := length_nextToken hs h
      rw [if_neg hcomment]
      omega

/-! ## The parser -/

/-- Two parsers in the same state, on sources that deliver the same tokens. A parser on a buffer and
one on a list of tokens are such a pair. -/
structure Sim (ts : TokenSource τ) (ts' : TokenSource τ') (p : Parser τ) (q : Parser τ') :
    Prop where
  state_eq : p.toParserState = q.toParserState
  lexer : TokenSource.Sim ts ts' p.lexer q.lexer

variable {p p' : Parser τ} {q q' : Parser τ'}

/-- A change of the parser's own fields keeps two parsers alike. -/
theorem Sim.update (h : Sim ts ts' p q) (f : ParserState → ParserState) :
    Sim ts ts' (p.update f) (q.update f) := ⟨congrArg f h.state_eq, h.lexer⟩

/-- `signal_error` keeps them alike: the text in both lexers is the same. -/
theorem Sim.signalError (h : Sim ts ts' p q) (token : Token) (pos : Nat × Nat) :
    Sim ts ts' (p.signalError ts token pos) (q.signalError ts' token pos) := by
  rw [Parser.signalError, Parser.signalError, tokenText, tokenText, h.lexer.string_eq]
  exact h.update _

/-- `set_event` keeps them alike, for the same reason. -/
theorem Sim.setEvent (h : Sim ts ts' p q) (token : Token) (event : Event) :
    Sim ts ts' (p.setEvent ts token event) (q.setEvent ts' token event) := by
  rw [Parser.setEvent, Parser.setEvent, tokenText, tokenText, h.lexer.string_eq]
  exact h.update _

/-- Both read the same token next, behind the same comments. -/
theorem Sim.nextToken (h : Sim ts ts' p q) : (p.nextToken ts).1 = (q.nextToken ts').1 ∧
    Sim ts ts' (p.nextToken ts).2 (q.nextToken ts').2 := by
  obtain ⟨htok, hlexer⟩ := skipComments_sim (ts.limit p.lexer) h.lexer
    (ts.lt_limit h.lexer.ok) (h.lexer.lexemes_eq ▸ ts'.lt_limit h.lexer.ok')
  exact ⟨htok, h.state_eq, hlexer⟩

/-- What a function that reads nothing does is the same. -/
theorem Sim.tryState (h : Sim ts ts' p q) (f : Bytes → ParserState → Option ParserState) :
    (p.tryState ts f = none ∧ q.tryState ts' f = none) ∨
      ∃ p' q', p.tryState ts f = some p' ∧ q.tryState ts' f = some q' ∧ Sim ts ts' p' q' := by
  have htext : p.tokenText ts = q.tokenText ts' := h.lexer.string_eq
  rw [Parser.tryState, Parser.tryState, htext, h.state_eq]
  cases f (q.tokenText ts') q.toParserState with
  | none => exact .inl ⟨rfl, rfl⟩
  | some s => exact .inr ⟨_, _, rfl, rfl, rfl, h.lexer⟩

/-- An expectation has an outcome on both sides or on neither. -/
theorem Sim.tryState_getD (h : Sim ts ts' p q) (h' : Sim ts ts' p' q')
    (f : Bytes → ParserState → Option ParserState) :
    Sim ts ts' ((p.tryState ts f).getD p') ((q.tryState ts' f).getD q') := by
  rcases h.tryState f with ⟨hp, hq⟩ | ⟨p₁, q₁, hp, hq, hsim⟩
  · rw [hp, hq]
    exact h'
  · rw [hp, hq]
    exact hsim

/-- `expect_new_entry` gives the same result and position on both sides, and leaves the two alike.
-/
theorem Sim.expectNewEntry (h : Sim ts ts' p q) (token : Token) (pos : Nat × Nat) :
    (p.expectNewEntry ts token pos).1 = (q.expectNewEntry ts' token pos).1 ∧
      (p.expectNewEntry ts token pos).2.1 = (q.expectNewEntry ts' token pos).2.1 ∧
      Sim ts ts' (p.expectNewEntry ts token pos).2.2 (q.expectNewEntry ts' token pos).2.2 := by
  rw [Parser.expectNewEntry, Parser.expectNewEntry]
  split
  · exact ⟨rfl, rfl, h.setEvent token .keyString⟩
  split
  · obtain ⟨hkey, hsim⟩ := h.nextToken
    dsimp only
    rw [← hkey]
    cases ParserState.keyEvent (p.nextToken ts).1.1 with
    | none => exact ⟨rfl, rfl, hsim⟩
    | some e =>
      obtain ⟨hclose, hsim'⟩ := (hsim.setEvent (p.nextToken ts).1.1 e).nextToken
      dsimp only
      rw [← hclose]
      split
      · exact ⟨rfl, rfl, hsim'.signalError _ _⟩
      · exact ⟨rfl, rfl, hsim'⟩
  · rcases h.tryState (ParserState.expectValue token) with ⟨hp, hq⟩ | ⟨p₁, q₁, hp, hq, hsim⟩
    · rw [hp, hq]
      exact ⟨rfl, rfl, h⟩
    · rw [hp, hq]
      exact ⟨rfl, rfl, hsim⟩

/-- The loop over semicolons does nothing where there is none. -/
theorem skipSemicolons_of_ne {token : Token} (h : token ≠ .semicolon) (fuel : Nat)
    (pos : Nat × Nat) (p : Parser τ) : skipSemicolons ts fuel token pos p = ((token, pos), p) := by
  cases fuel with
  | zero => rfl
  | succ fuel => rw [skipSemicolons, if_neg h]

/-- The loop of `expect_new_definition` takes as many turns as it needs, and comes to the same token
on both sides. -/
theorem Sim.skipSemicolons (fuel : Nat) : ∀ {fuel' : Nat} {p : Parser τ} {q : Parser τ'},
    Sim ts ts' p q → (ts.lexemes p.lexer).length < fuel → (ts.lexemes p.lexer).length < fuel' →
    ∀ token pos, (skipSemicolons ts fuel token pos p).1 = (skipSemicolons ts' fuel' token pos q).1 ∧
      Sim ts ts' (skipSemicolons ts fuel token pos p).2
        (skipSemicolons ts' fuel' token pos q).2 := by
  induction fuel with
  | zero => exact fun _ hfuel => absurd hfuel (Nat.not_lt_zero _)
  | succ fuel ih =>
    intro fuel' p q h hfuel hfuel' token pos
    by_cases hsemi : token = .semicolon
    swap
    · rw [skipSemicolons_of_ne hsemi, skipSemicolons_of_ne hsemi]
      exact ⟨rfl, h⟩
    obtain ⟨fuel', rfl⟩ : ∃ k, fuel' = k + 1 := ⟨fuel' - 1, by omega⟩
    obtain ⟨htok, hsim⟩ := h.nextToken
    rw [Parser.skipSemicolons, Parser.skipSemicolons, if_pos hsemi, if_pos hsemi]
    dsimp only
    rw [← htok]
    by_cases hnext : (p.nextToken ts).1.1 = .semicolon
    · have hlen := length_skipComments (ts.limit p.lexer) h.lexer.ok
        (by rw [show (skipComments ts _ p.lexer).1.1 = _ from hnext]; simp)
      exact ih hsim (Nat.lt_of_lt_of_le hlen (Nat.le_of_lt_succ hfuel))
        (Nat.lt_of_lt_of_le hlen (Nat.le_of_lt_succ hfuel')) _ _
    · rw [skipSemicolons_of_ne hnext, skipSemicolons_of_ne hnext]
      exact ⟨rfl, hsim⟩

/-- `expect_new_definition` gives the same result and position on both sides; the number of turns of
its loop may differ, but is enough on each. -/
theorem Sim.expectNewDefinition (h : Sim ts ts' p q) (token : Token) (pos : Nat × Nat) :
    (p.expectNewDefinition ts token pos).1 = (q.expectNewDefinition ts' token pos).1 ∧
      (p.expectNewDefinition ts token pos).2.1 = (q.expectNewDefinition ts' token pos).2.1 ∧
      Sim ts ts' (p.expectNewDefinition ts token pos).2.2
        (q.expectNewDefinition ts' token pos).2.2 := by
  have hlt := ts.lt_limit h.lexer.ok
  have hlt' := ts'.lt_limit h.lexer.ok'
  rw [← h.lexer.lexemes_eq] at hlt'
  obtain ⟨htok, hsim⟩ := h.skipSemicolons (ts.limit p.lexer + 1) (Nat.lt_succ_of_lt hlt)
    (Nat.lt_succ_of_lt hlt') token pos
  rw [Parser.expectNewDefinition, Parser.expectNewDefinition]
  rw [← htok]
  split
  · exact ⟨rfl, rfl, hsim.setEvent _ _⟩
  · exact ⟨rfl, rfl, hsim⟩

/-- The two stay alike where a definition is expected. -/
theorem Sim.nextDefinition (h : Sim ts ts' p q) (token : Token) (pos : Nat × Nat) :
    Sim ts ts' (p.nextDefinition ts token pos) (q.nextDefinition ts' token pos) := by
  obtain ⟨hok, hpos, hsim⟩ := h.expectNewDefinition token pos
  rw [Parser.nextDefinition, Parser.nextDefinition]
  rw [← hok, ← hpos]
  split
  · exact hsim
  · exact hsim.tryState_getD (hsim.signalError _ _) _

/-- The two stay alike where an entry is expected. -/
theorem Sim.nextEntry (h : Sim ts ts' p q) (token : Token) (pos : Nat × Nat) :
    Sim ts ts' (p.nextEntry ts token pos) (q.nextEntry ts' token pos) := by
  obtain ⟨hok, hpos, hsim⟩ := h.expectNewEntry token pos
  rw [Parser.nextEntry, Parser.nextEntry]
  rw [← hok, ← hpos]
  split
  · exact hsim
  · exact hsim.tryState_getD (hsim.signalError _ _) _

/-- The two stay alike behind a key. -/
theorem Sim.nextValue (h : Sim ts ts' p q) (token : Token) (pos : Nat × Nat) :
    Sim ts ts' (p.nextValue ts token pos) (q.nextValue ts' token pos) := by
  rw [Parser.nextValue, Parser.nextValue]
  split
  · exact h.signalError _ _
  · obtain ⟨htok, hsim⟩ := h.nextToken
    dsimp only
    rw [← htok]
    exact hsim.tryState_getD (hsim.signalError _ _) _

/-- The two stay alike behind a value, in each of the cases there. -/
theorem Sim.nextAfterValue (h : Sim ts ts' p q) (token : Token) (pos : Nat × Nat) :
    Sim ts ts' (p.nextAfterValue ts token pos) (q.nextAfterValue ts' token pos) := by
  have hdepth : p.depth = q.depth := congrArg ParserState.depth h.state_eq
  have hdefs : p.noDefs = q.noDefs := congrArg ParserState.noDefs h.state_eq
  rw [Parser.nextAfterValue, Parser.nextAfterValue, ← hdepth, ← hdefs]
  split
  · split
    · exact h.nextDefinition _ _
    · exact h.tryState_getD (h.signalError _ _) _
  split
  · obtain ⟨htok, hsim⟩ := h.nextToken
    dsimp only
    rw [← htok]
    exact hsim.nextEntry _ _
  · exact h.tryState_getD (h.signalError _ _) _

/-- **One call takes parsers in the same state to the same state**, on sources that deliver the same
tokens. Both parsers take the same branches, as these depend on the state and on the token read,
which are the same. -/
theorem Sim.next (h : Sim ts ts' p q) : Sim ts ts' (p.next ts) (q.next ts') := by
  have hevent : p.event = q.event := congrArg ParserState.event h.state_eq
  have hlast : Sim ts ts'
      (if p.event ≠ .comment then p.update fun s => { s with lastEvent := s.event } else p)
      (if q.event ≠ .comment then q.update fun s => { s with lastEvent := s.event } else q) := by
    rw [← hevent]
    split
    · exact h.update _
    · exact h
  rw [Parser.next, Parser.next]
  generalize (if p.event ≠ .comment then p.update fun s => { s with lastEvent := s.event } else p) =
    p₁ at hlast ⊢
  generalize (if q.event ≠ .comment then q.update fun s => { s with lastEvent := s.event } else q) =
    q₁ at hlast ⊢
  obtain ⟨htok, hsim⟩ := hlast.nextToken
  rw [← htok]
  generalize (p₁.nextToken ts).1 = read
  have hev : (p₁.nextToken ts).2.lastEvent = (q₁.nextToken ts').2.lastEvent :=
    congrArg ParserState.lastEvent hsim.state_eq
  rw [← hev]
  cases (p₁.nextToken ts).2.lastEvent with
  | streamStart =>
    dsimp only
    rcases hsim.tryState (ParserState.expectTableStart read.1) with ⟨hp, hq⟩ | ⟨p₂, q₂, hp, hq, h₂⟩
    · rw [hp, hq]
      exact hsim.nextDefinition _ _
    · rw [hp, hq]
      exact h₂.update fun s => { s with noDefs := true }
  | comment => exact hsim
  | defName => exact hsim.nextValue _ _
  | keyString => exact hsim.nextValue _ _
  | keyNumber => exact hsim.nextValue _ _
  | keyInteger => exact hsim.nextValue _ _
  | tableEnd => exact hsim.nextAfterValue _ _
  | valueString => exact hsim.nextAfterValue _ _
  | valueNumber => exact hsim.nextAfterValue _ _
  | valueInteger => exact hsim.nextAfterValue _ _
  | valueTrue => exact hsim.nextAfterValue _ _
  | valueFalse => exact hsim.nextAfterValue _ _
  | valueNil => exact hsim.nextAfterValue _ _
  | tableStart => exact hsim.nextEntry _ _
  | streamEnd => exact hsim
  | error => exact hsim

/-- **Runs.** The two stay alike over any number of calls, so what is proved on a list of tokens
holds on every source. -/
theorem Sim.after (n : Nat) : ∀ {p : Parser τ} {q : Parser τ'}, Sim ts ts' p q →
    Sim ts ts' (p.after ts n) (q.after ts' n) := by
  induction n with
  | zero => exact fun h => h
  | succ n ih =>
    intro p q h
    rw [after_succ, after_succ]
    exact ih h.next

end Parser

end

end Eltn
