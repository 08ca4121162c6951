import Eltn.Lexer.Settled
import Eltn.Lib.Runs
import Eltn.Parser.Chunks
import Eltn.Parser.Program

/-!
# A parser that is fed between its calls

A caller may write to the buffer of a parser between the calls of `ELTN_Parser_next`. What is
written is parsed as if it had stood there from the start, up to the call in which the lexer comes
to the end of the buffer: from then on it reads nothing more, whatever is written
(`push_eq_readString`).

Up to that call all tokens are settled, so the parser is in the state of a parser on any longer text
(`Ahead`); behind it both are at the end of their input (`Over`).
-/

namespace Eltn

namespace Lexer

variable {σ σ' : Type} {cs : CharSource σ} {cs' : CharSource σ'}

/-! ## Sources with the same characters -/

section
variable {cs₁ cs₂ : CharSource σ} (hchar : cs₁.nextChar = cs₂.nextChar)
  (hbytes : cs₁.bytes = cs₂.bytes)

include hchar in
/-- Two sources with the same characters give the lexer the same next character. -/
theorem getNextChar_congr (self : Lexer σ) : self.getNextChar cs₁ = self.getNextChar cs₂ := by
  rw [getNextChar, getNextChar, hchar]

include hbytes in
/-- If they have the same bytes, its loops have the same fuel. -/
theorem limit_congr (self : Lexer σ) : self.limit cs₁ = self.limit cs₂ := by
  rw [limit, limit, hbytes]

include hchar in
/-- The loop of quoted strings runs alike on two such sources. -/
theorem consumeQuoteLoop_congr (q : UInt8) (fuel : Nat) : ∀ prev curr (self : Lexer σ),
    consumeQuoteLoop cs₁ q fuel prev curr self = consumeQuoteLoop cs₂ q fuel prev curr self := by
  induction fuel with
  | zero => exact fun _ _ _ => rfl
  | succ fuel ih =>
    intro prev curr self
    rw [consumeQuoteLoop, consumeQuoteLoop]
    simp only [getNextChar_congr hchar, ih]

include hchar in
/-- The loop of comments runs alike on them. -/
theorem consumeCommentLoop_congr (fuel : Nat) : ∀ curr isLong depth (self : Lexer σ),
    consumeCommentLoop cs₁ fuel curr isLong depth self =
      consumeCommentLoop cs₂ fuel curr isLong depth self := by
  induction fuel with
  | zero => exact fun _ _ _ _ => rfl
  | succ fuel ih =>
    intro curr isLong depth self
    rw [consumeCommentLoop, consumeCommentLoop]
    simp only [getNextChar_congr hchar, ih]

include hchar in
/-- The loop of long strings runs alike on them. -/
theorem longStringLoop_congr (fuel : Nat) : ∀ curr pastOpen depth (self : Lexer σ),
    longStringLoop cs₁ fuel curr pastOpen depth self =
      longStringLoop cs₂ fuel curr pastOpen depth self := by
  induction fuel with
  | zero => exact fun _ _ _ _ => rfl
  | succ fuel ih =>
    intro curr pastOpen depth self
    rw [longStringLoop, longStringLoop]
    simp only [getNextChar_congr hchar, ih]

include hchar in
/-- The loop of numbers and names runs alike on them. -/
theorem appendWhile_congr (p : UInt8 → Bool) (fuel : Nat) : ∀ curr (self : Lexer σ),
    appendWhile cs₁ p fuel curr self = appendWhile cs₂ p fuel curr self := by
  induction fuel with
  | zero => exact fun _ _ => rfl
  | succ fuel ih =>
    intro curr self
    rw [appendWhile, appendWhile]
    simp only [getNextChar_congr hchar, ih]

include hchar in
/-- The loop over whitespace runs alike on them. -/
theorem skipSpaces_congr (fuel : Nat) : ∀ curr (self : Lexer σ),
    skipSpaces cs₁ fuel curr self = skipSpaces cs₂ fuel curr self := by
  induction fuel with
  | zero => exact fun _ _ => rfl
  | succ fuel ih =>
    intro curr self
    rw [skipSpaces, skipSpaces]
    simp only [getNextChar_congr hchar, ih]

include hchar hbytes in
/-- The token behind a first byte is the same. -/
theorem readToken_congr (c : UInt8) (self : Lexer σ) :
    readToken cs₁ c self = readToken cs₂ c self := by
  simp only [readToken, parseLongString, parseNumber, parseName, consumeUntilEndOfComment,
    consumeUntilMatchingQuote, getNextChar_congr hchar, limit_congr hbytes,
    consumeQuoteLoop_congr hchar, consumeCommentLoop_congr hchar, longStringLoop_congr hchar,
    appendWhile_congr hchar]

include hchar hbytes in
/-- The lexer sees nothing of its source but the characters, and how many there are. -/
theorem nextToken_congr (self : Lexer σ) : nextToken cs₁ self = nextToken cs₂ self := by
  simp only [nextToken, getNextChar_congr hchar, limit_congr hbytes, skipSpaces_congr hchar,
    readToken_congr hchar hbytes]

end

/-! ## A source that grows -/

/-- The lexer on another source. -/
def onSource (self : Lexer σ) (s : σ) : Lexer σ := { self with source := s }

/-- A byte that was put back is read again, from the lexer and not from its source. -/
theorem getNextChar_pushback (self : Lexer σ) (h : self.pushback = true) :
    self.getNextChar cs = (some self.currentChar, { self with pushback := false }) := by
  rw [getNextChar, if_pos h]

/-- Before the end of the input the next character is the first byte of the source, if there is
one. -/
theorem getNextChar_read (self : Lexer σ) (hok : cs.Ok self.source) (hback : self.pushback = false)
    (heos : self.eos = false) : self.getNextChar cs = ((cs.bytes self.source).head?,
      { self.advance self.currentChar with
        source := (cs.nextChar self.source).2
        currentChar := (cs.bytes self.source).head?.getD self.currentChar
        eos := (cs.bytes self.source).isEmpty }) := by
  rw [getNextChar, if_neg (by simp [hback]), if_neg (by simp [heos])]
  dsimp only
  rw [cs.nextChar_fst hok]
  cases cs.bytes self.source with
  | nil => rfl
  | cons c r =>
    have hadvance : (self.advance self.currentChar).eos = false := heos
    dsimp only [List.head?_cons]
    rw [hadvance]
    rfl

/-- Before the end of its input, the lexer stands before the character put back and what its source
has left. -/
theorem Ready.left_eq {src r : Bytes} {self : Lexer σ} (h : Ready cs src r self)
    (heos : self.eos = false) :
    r = if self.pushback then self.currentChar :: cs.bytes self.source
      else cs.bytes self.source := by
  obtain ⟨hok, pre, -, hat⟩ := h
  cases hback : self.pushback with
  | true =>
    rw [getNextChar_pushback self hback, if_neg (by simp [heos])] at hat
    have hcurr : some self.currentChar = r.head? := hat.curr_eq
    have htail : cs.bytes self.source = r.tail := hat.bytes_eq
    cases r with
    | nil => cases hcurr
    | cons c r =>
      rw [htail, if_pos rfl, Option.some.inj hcurr]
      rfl
  | false =>
    rw [getNextChar_read self hok hback heos] at hat
    have heos' : (cs.bytes self.source).isEmpty = r.isEmpty := hat.eos_eq
    have hbytes : cs.bytes (cs.nextChar self.source).2 = r.tail := hat.bytes_eq
    have hcurr := hat.curr_eq
    rw [cs.bytes_nextChar hok] at hbytes
    rw [if_neg (by simp)]
    generalize cs.bytes self.source = b at *
    cases b with
    | nil => exact List.isEmpty_iff.mp heos'.symm
    | cons c b =>
      cases r with
      | nil => cases heos'
      | cons d r =>
        obtain rfl : c = d := Option.some.inj hcurr
        exact congrArg _ hbytes.symm

/-- Before the end of its input, the lexer stands before what is added to it as well: it has seen
nothing behind the bytes that it had. -/
theorem Ready.extend {src r more : Bytes} {self : Lexer σ} {s : σ} (h : Ready cs src r self)
    (heos : self.eos = false) (hs : cs.Ok s)
    (hbytes : cs.bytes s = cs.bytes self.source ++ more) :
    Ready cs (src ++ more) (r ++ more) (self.onSource s) := by
  have hleft := h.left_eq heos
  obtain ⟨hok, pre, rfl, hat⟩ := h
  refine ⟨hs, pre, List.append_assoc .., ?_⟩
  have hshort : pre.length + (r ++ more).length < 2 ^ 31 → pre.length + r.length < 2 ^ 31 := by
    rw [List.length_append]
    omega
  cases hback : self.pushback with
  | true =>
    rw [hback, if_pos rfl] at hleft
    subst hleft
    rw [getNextChar_pushback self hback, if_neg (by simp [heos])] at hat
    rw [getNextChar_pushback (self.onSource s) hback, if_neg (by simp [heos, onSource])]
    exact ⟨hs, rfl, hbytes, rfl, heos, hat.char_eq, fun hlen => hat.pos (hshort hlen)⟩
  | false =>
    rw [hback, if_neg (by simp)] at hleft
    rw [getNextChar_read self hok hback heos] at hat
    rw [getNextChar_read (self.onSource s) hs hback heos]
    have hsource : cs.bytes (self.onSource s).source = r ++ more := by rw [hleft]; exact hbytes
    rw [hsource]
    refine ⟨cs.ok_nextChar hs, ?_, ?_, hback, rfl, ?_, fun hlen => hat.pos (hshort hlen)⟩
    · cases r ++ more <;> rfl
    · exact (cs.bytes_nextChar hs).trans (congrArg _ hsource)
    · intro c hc
      rw [hc]
      rfl

/-! ## Lexers on a text and on a longer one -/

/-- A settled token stands at the same position of a longer input. -/
theorem lexeme_append {src r more : Bytes} (h : Scan.Settled scan r) :
    Scan.lexeme (src ++ more) (r ++ more) = Scan.lexeme src r := by
  have hne : r.dropWhile isSpace ≠ [] := fun hnil => h.not_unsettled (unsettled_spaces hnil)
  have hdrop : (r ++ more).dropWhile isSpace = r.dropWhile isSpace ++ more := by
    rw [List.dropWhile_append, if_neg (by rwa [List.isEmpty_iff])]
  have htake : (src ++ more).take ((src ++ more).length - ((r ++ more).dropWhile isSpace).length) =
      src.take (src.length - (r.dropWhile isSpace).length) := by
    rw [hdrop, List.length_append, List.length_append, Nat.add_sub_add_right,
      List.take_append_of_le_length (Nat.sub_le _ _)]
  rw [Scan.lexeme, Scan.lexeme, htake, h more]
  rfl

/-- The first lexer is before the end of its input `src`; the second has read as much, and has more
bytes behind those of the first. -/
structure Ahead (cs : CharSource σ) (cs' : CharSource σ') (src more : Bytes) (l : Lexer σ)
    (l' : Lexer σ') : Prop where
  small : (src ++ more).length < 2 ^ 31
  text_eq : l.tokenString = l'.tokenString
  eos_eq : l.eos = false
  ready : ∃ r, Ready cs src r l ∧ Ready cs' (src ++ more) (r ++ more) l'

section
variable {src more : Bytes} {l : Lexer σ} {l' : Lexer σ'}

/-- What the first lexer reads is short as well. -/
theorem Ahead.small_src (h : Ahead cs cs' src more l l') : src.length < 2 ^ 31 := by
  have hlen := h.small
  rw [List.length_append] at hlen
  omega

/-- Both sources are in order. -/
theorem Ahead.ok (h : Ahead cs cs' src more l l') :
    TokenSource.Ok (.ofLexer cs) l ∧ TokenSource.Ok (.ofLexer cs') l' := by
  obtain ⟨r, hready, hready'⟩ := h.ready
  exact ⟨⟨_, _, h.small_src, hready⟩, ⟨_, _, h.small, hready'⟩⟩

/-- Up to the end of its input the first lexer reads the tokens of the second. Where it comes to
that end, nothing more is said of the two. -/
theorem Ahead.nextToken (h : Ahead cs cs' src more l l') :
    (nextToken cs l).2.eos = true ∨ (nextToken cs l).1 = (nextToken cs' l').1 ∧
      Ahead cs cs' src more (nextToken cs l).2 (nextToken cs' l').2 := by
  obtain ⟨r, hready, hready'⟩ := h.ready
  cases heos : (Lexer.nextToken cs l).2.eos with
  | true => exact .inl rfl
  | false =>
    have hsettled := (nextToken_settled hready).eq_false_iff.mp heos
    obtain ⟨hlexeme, hnext⟩ := hready.lexeme_eq h.small_src
    obtain ⟨hlexeme', hnext'⟩ := hready'.lexeme_eq h.small
    rw [lexeme_append hsettled, ← hlexeme] at hlexeme'
    rw [hsettled more] at hnext'
    exact .inr ⟨congrArg Lexeme.report hlexeme'.symm, h.small,
      congrArg Lexeme.text hlexeme'.symm, heos, _, hnext, hnext'⟩

/-- Lexers that have the same left are before the same tokens. -/
theorem Ahead.sim (h : Ahead cs cs' src [] l l') :
    TokenSource.Sim (.ofLexer cs) (.ofLexer cs') l l' := by
  obtain ⟨r, hready, hready'⟩ := h.ready
  have hlen := h.small_src
  rw [List.append_nil, List.append_nil] at hready'
  exact ⟨h.ok.1, h.ok.2, (hready.lexemes_eq hlen).trans (hready'.lexemes_eq hlen).symm,
    (hready.final_eq hlen).trans (hready'.final_eq hlen).symm, h.text_eq⟩

/-- What is added to the first source is taken from the rest of the second. -/
theorem Ahead.extend {text : Bytes} {s : σ} (h : Ahead cs cs' src (text ++ more) l l')
    (hs : cs.Ok s) (hbytes : cs.bytes s = cs.bytes l.source ++ text) :
    Ahead cs cs' (src ++ text) more (l.onSource s) l' := by
  obtain ⟨r, hready, hready'⟩ := h.ready
  rw [← List.append_assoc, ← List.append_assoc] at hready'
  exact ⟨by rw [List.append_assoc]; exact h.small, h.text_eq, h.eos_eq, _,
    hready.extend h.eos_eq hs hbytes, hready'⟩

end

/-- The first lexer is at the end of its input, and the second source has no more tokens; both hold
the same token. -/
structure Over {τ : Type} (ts : TokenSource τ) (l : Lexer σ) (s : τ) : Prop where
  text_eq : l.tokenString = ts.tokenString s
  eos_eq : l.eos = true
  ok : ts.Ok s
  lexemes_eq : ts.lexemes s = []
  final_eq : ts.final s = ⟨.eof, [], l.line, l.column⟩

section
variable {τ : Type} {ts : TokenSource τ} {l : Lexer σ} {s : τ}

/-- Both report the end of the input again. Nothing changes by it. -/
theorem Over.nextToken (cs : CharSource σ) (h : Over ts l s) :
    (nextToken cs l).1 = (ts.nextToken s).1 ∧
      Over ts (nextToken cs l).2 (ts.nextToken s).2 := by
  have hfst := ts.nextToken_fst h.ok
  have htext := ts.tokenString_nextToken h.ok
  have hlexemes := ts.lexemes_nextToken h.ok
  have hfinal := ts.final_nextToken h.ok
  rw [h.lexemes_eq, List.headD_nil, h.final_eq] at hfst htext
  rw [nextToken_of_eos cs h.eos_eq]
  refine ⟨hfst.symm, htext.symm, h.eos_eq, ts.ok_nextToken h.ok, ?_, hfinal.trans h.final_eq⟩
  rw [hlexemes, h.lexemes_eq]
  rfl

/-- Whatever becomes of the source, the lexer is at the end of its input. -/
theorem Over.onSource (h : Over ts l s) (s' : σ) : Over ts (l.onSource s') s :=
  ⟨h.text_eq, h.eos_eq, h.ok, h.lexemes_eq, h.final_eq⟩

/-- A lexer that comes to the end of its input has no tokens left, and neither has a source of the
same tokens. -/
theorem over_of_sim (h : TokenSource.Sim (.ofLexer cs) ts l s) (heos : l.eos = true) :
    Over ts l s := by
  have hread := nextToken_of_eos cs heos
  have htoken : (lexeme cs l).token = .eof := by rw [lexeme, hread]
  have hlexemes : lexemes cs l = [] := by
    rw [lexemes, limit, lexemesUpTo, if_pos htoken]
  have hreport := h.ok.report_eq
  have htext := h.ok.text_eq
  rw [hlexemes, List.headD_nil, hread] at hreport htext
  refine ⟨h.string_eq, heos, h.ok', h.lexemes_eq.symm.trans hlexemes, h.final_eq.symm.trans ?_⟩
  generalize hfinal : final cs l = x at hreport htext
  obtain ⟨t, text, line, column⟩ := x
  obtain ⟨rfl, rfl, rfl⟩ : t = .eof ∧ line = l.line ∧ column = l.column := by
    simpa [Lexeme.report, eq_comm] using hreport
  obtain rfl : text = [] := htext.symm
  exact hfinal

end

end Lexer

namespace Parser

section
variable {σ σ' τ : Type} {cs : CharSource σ} {cs' : CharSource σ'} {ts : TokenSource τ}
  {src more : Bytes} {p : Parser (Lexer σ)} {q : Parser (Lexer σ')} {q' : Parser τ}

/-- At the end of its input a lexer has no tokens left. So its loops need no turns. -/
theorem ends_of_eos (cs : CharSource σ) :
    (TokenSource.ofLexer cs).Ends (fun l => l.eos = true) fun _ => 0 where
  ok_nextToken := Lexer.eos_of_eos
  left_nextToken _ := Nat.le_refl 0
  left_lt {l} hl hne := by
    rw [show (TokenSource.ofLexer cs).nextToken l = _ from Lexer.nextToken_of_eos cs hl] at hne
    exact absurd rfl hne
  lt_limit {l} _ := by
    show 0 < l.limit cs
    rw [Lexer.limit]
    omega

/-- At the end of the input one turn is enough. -/
theorem enough_of_eos (h : p.lexer.eos = true) : Enough (.ofLexer cs) 1 p :=
  ⟨fun l => l.eos = true, fun _ => 0, ends_of_eos cs, h, Nat.one_pos⟩

/-- No operation leads away from the end of the input. -/
theorem handler_eos (o : Operation) (p : Parser (Lexer σ)) (h : p.lexer.eos = true) :
    ∃ r t, handler (.ofLexer cs) o p = some (r, t) ∧ t.lexer.eos = true := by
  rcases eq_or_ne o .lexerNextToken with rfl | ho
  · exact ⟨_, _, rfl, Lexer.eos_of_eos h⟩
  · obtain ⟨r, s, hcall, -⟩ := handler_same (.ofLexer cs) (.ofLexer cs) (p := p) rfl rfl ho
    exact ⟨r, _, hcall, h⟩

/-- **One call before the end of the input.** A parser that stays before the end of its input goes
to the state of a parser that has more input behind it. -/
theorem next_ahead (hstate : p.toParserState = q.toParserState)
    (h : Lexer.Ahead cs cs' src more p.lexer q.lexer) :
    (p.next (.ofLexer cs)).lexer.eos = true ∨
      (p.next (.ofLexer cs)).toParserState = (q.next (.ofLexer cs')).toParserState ∧
        Lexer.Ahead cs cs' src more (p.next (.ofLexer cs)).lexer (q.next (.ofLexer cs')).lexer := by
  refine next_until (.ofLexer cs) (.ofLexer cs') (E := fun p => p.lexer.eos = true)
    (R := fun p q => p.toParserState = q.toParserState ∧
      Lexer.Ahead cs cs' src more p.lexer q.lexer)
    (enough_of_ok h.ok.1) (enough_of_ok h.ok.2) ?_ handler_eos ⟨hstate, h⟩
  rintro o p q ⟨hstate, h⟩
  rcases eq_or_ne o .lexerNextToken with rfl | ho
  · rcases h.nextToken with heos | ⟨hread, hnext⟩
    · exact ⟨_, _, rfl, .inl heos⟩
    · refine ⟨_, _, rfl, .inr ⟨{ q with lexer := (Lexer.nextToken cs' q.lexer).2 }, ?_, hstate,
        hnext⟩⟩
      rw [show (TokenSource.nextToken (.ofLexer cs) p.lexer).1 = _ from hread]
      rfl
  · obtain ⟨r, s, hcall, hcall'⟩ := handler_same (.ofLexer cs) (.ofLexer cs') hstate h.text_eq ho
    exact ⟨r, _, hcall, .inr ⟨_, hcall', rfl, h⟩⟩

/-- **One call at the end of the input** takes both to the same state, and leaves them there. -/
theorem next_over (cs : CharSource σ) (hstate : p.toParserState = q'.toParserState)
    (h : Lexer.Over ts p.lexer q'.lexer) :
    (p.next (.ofLexer cs)).toParserState = (q'.next ts).toParserState ∧
      Lexer.Over ts (p.next (.ofLexer cs)).lexer (q'.next ts).lexer := by
  refine (next_until (.ofLexer cs) ts (E := fun _ => False)
    (R := fun p q => p.toParserState = q.toParserState ∧ Lexer.Over ts p.lexer q.lexer)
    (enough_of_eos h.eos_eq) (enough_of_ok h.ok) ?_ (fun _ _ h => h.elim)
    ⟨hstate, h⟩).resolve_left id
  rintro o p q ⟨hstate, h⟩
  rcases eq_or_ne o .lexerNextToken with rfl | ho
  · obtain ⟨hread, hnext⟩ := h.nextToken cs
    refine ⟨_, _, rfl, .inr ⟨{ q with lexer := (ts.nextToken q.lexer).2 }, ?_, hstate, hnext⟩⟩
    rw [show (TokenSource.nextToken (.ofLexer cs) p.lexer).1 = _ from hread]
    rfl
  · obtain ⟨r, s, hcall, hcall'⟩ := handler_same (.ofLexer cs) ts hstate h.text_eq ho
    exact ⟨r, _, hcall, .inr ⟨_, hcall', rfl, h⟩⟩

end

section
variable {σ : Type} {cs₁ cs₂ : CharSource σ} {p : Parser (Lexer σ)}

/-- Sources with the same characters take the parser to the same state, whatever else they say of
themselves. -/
theorem next_congr (hchar : cs₁.nextChar = cs₂.nextChar) (hbytes : cs₁.bytes = cs₂.bytes)
    (h₁ : TokenSource.Ok (.ofLexer cs₁) p.lexer) (h₂ : TokenSource.Ok (.ofLexer cs₂) p.lexer) :
    p.next (.ofLexer cs₁) = p.next (.ofLexer cs₂) := by
  refine (next_until _ _ (E := fun _ => False) (R := fun p q => p = q) (enough_of_ok h₁)
    (enough_of_ok h₂) ?_ (fun _ _ h => h.elim) rfl).resolve_left id
  rintro o p - rfl
  have hcall : handler (.ofLexer cs₁) o p = handler (.ofLexer cs₂) o p := by
    cases o with
    | lexerNextToken =>
      show some _ = some _
      rw [show (TokenSource.ofLexer cs₁).nextToken p.lexer =
        (TokenSource.ofLexer cs₂).nextToken p.lexer from Lexer.nextToken_congr hchar hbytes _]
    | _ => rfl
  obtain ⟨r, t, ht⟩ := handler_total (.ofLexer cs₂) o p
  exact ⟨r, t, hcall.trans ht, .inr ⟨t, ht, rfl⟩⟩

end

end Parser

/-! ## Buffers without a reader -/

/-- Buffers that only their callers write to: they have no reader, and an empty one is the end of
the input. -/
def CharSource.ofPushed : CharSource Buffer where
  nextChar := CharSource.ofBuffer.nextChar
  bytes := CharSource.ofBuffer.bytes
  Ok b := CharSource.ofBuffer.Ok b ∧ b.reader = none
  nextChar_fst h := CharSource.ofBuffer.nextChar_fst h.1
  bytes_nextChar h := CharSource.ofBuffer.bytes_nextChar h.1
  ok_nextChar {b} h := by
    refine ⟨CharSource.ofBuffer.ok_nextChar h.1, ?_⟩
    obtain ⟨b', hnext, -, -, -, -, hreader⟩ := Buffer.nextByte_spec h.1.sound true
    show (b.nextChar true).2.reader = none
    rw [Buffer.nextChar_eq h.2, hnext]
    exact hreader.trans h.2

section
variable {b b' : Buffer} {text : Bytes}

/-- Such a buffer delivers what it stores. -/
theorem Buffer.bytes_pushed (h : b.reader = none) : b.bytes = b.contents := by
  rw [bytes, pending_none h, List.append_nil]

/-- A buffer that stores a text more. -/
theorem ok_pushed (hsound : b'.Sound) (hreader : b'.reader = none)
    (hbytes : b'.contents.length < 2 ^ 29) : CharSource.ofPushed.Ok b' := by
  refine ⟨⟨hsound, ?_, ?_⟩, hreader⟩
  · rw [Buffer.bytes_pushed hreader]
    exact hbytes
  · intro result hresult
    rw [hreader] at hresult
    cases hresult

/-- The lexer of such a buffer. -/
theorem ready_ofBuffer {src r : Bytes} {l : Lexer Buffer} (h : Lexer.Ready .ofPushed src r l) :
    Lexer.Ready .ofBuffer src r l := by
  obtain ⟨hok, pre, hsrc, hat⟩ := h
  exact ⟨hok.1, pre, hsrc, hat.ok.1, hat.curr_eq, hat.bytes_eq, hat.pushback_eq, hat.eos_eq,
    hat.char_eq, hat.pos⟩

end

namespace Parser

/-! ## Calls -/

/-- A call on a parser whose caller fills the buffer: a write, a change of capacity or the end of
it, or a call of the parser. -/
inductive PushCall where
  | write (alloc : Bool) (text : Bytes)
  | setCapacity (alloc : Bool) (newcap : Nat)
  | close
  | next
deriving DecidableEq, Repr

namespace PushCall

/-- What the call does to the buffer; a call of the parser takes bytes off, which is not told here.
-/
def onBuffer (b : Buffer) : PushCall → Buffer
  | .write alloc text => (b.write alloc text).2
  | .setCapacity alloc newcap => (b.setCapacity alloc newcap).2
  | .close => b.close
  | .next => b

/-- The bytes that the call asks the buffer to take. -/
def size : PushCall → Nat
  | .write _ text => text.length
  | _ => 0

/-- A capacity that the call asks for is an `int`. -/
def Fits : PushCall → Prop
  | .setCapacity _ newcap => newcap < 2 ^ 31
  | _ => True

end PushCall

/-- A call of `ELTN_Parser_next`, or on the buffer of the parser. -/
def push (self : Parser (Lexer Buffer)) (call : PushCall) : Parser (Lexer Buffer) :=
  if call = .next then self.nextEvent
  else { self with lexer := self.lexer.onSource (call.onBuffer self.lexer.source) }

/-- The text that a call adds to the input: that of a write that succeeds before the lexer has come
to the end of the buffer. -/
def heardIn (self : Parser (Lexer Buffer)) : PushCall → Bytes
  | .write alloc text =>
    if self.lexer.eos || (self.lexer.source.write alloc text).1 < 0 then [] else text
  | _ => []

/-- A call adds no more to the input than it offers. -/
theorem length_heardIn (self : Parser (Lexer Buffer)) (call : PushCall) :
    (self.heardIn call).length ≤ call.size := by
  cases call with
  | write alloc text =>
    rw [heardIn]
    split
    · exact Nat.zero_le _
    · exact le_rfl
  | _ => exact le_rfl

/-- The text that the parser hears in some calls. -/
def heard : Parser (Lexer Buffer) → List PushCall → Bytes
  | _, [] => []
  | self, call :: calls => self.heardIn call ++ heard (self.push call) calls

/-- The bytes that some calls ask the buffer to take. -/
def offered (calls : List PushCall) : Nat := (calls.map (·.size)).sum

/-- Nothing is heard that was not offered. -/
theorem length_heard (calls : List PushCall) : ∀ self : Parser (Lexer Buffer),
    (heard self calls).length ≤ offered calls := by
  induction calls with
  | nil => exact fun _ => le_rfl
  | cons call calls ih =>
    intro self
    rw [heard, List.length_append]
    exact Nat.add_le_add (length_heardIn self call) (ih _)

/-! ## Runs -/

/-- A parser behind `k` calls on a text in memory. -/
def onText (text : Bytes) (k : Nat) : Parser (Lexer Bytes) :=
  (new { source := text }).after (.ofLexer .ofBytes) k

/-- One call more on a text. -/
theorem onText_succ (text : Bytes) (k : Nat) :
    onText text (k + 1) = (onText text k).next (.ofLexer .ofBytes) :=
  Function.iterate_succ_apply' _ _ _

/-- The parser has heard `acc` and not come to its end: whatever follows, it is in the state of a
parser on the longer text. -/
structure Live (acc : Bytes) (k : Nat) (p : Parser (Lexer Buffer)) : Prop where
  small : acc.length < 2 ^ 29
  state_eq : ∀ more, (acc ++ more).length < 2 ^ 31 →
    p.toParserState = (onText (acc ++ more) k).toParserState
  ahead : ∀ more, (acc ++ more).length < 2 ^ 31 →
    Lexer.Ahead .ofPushed .ofBytes acc more p.lexer (onText (acc ++ more) k).lexer

/-- The parser has come to the end of `acc`, and hears no more. -/
structure Deaf (acc : Bytes) (k : Nat) (p : Parser (Lexer Buffer)) : Prop where
  state_eq : p.toParserState = (onText acc k).toParserState
  ended : Lexer.Over (.ofLexer .ofBytes) p.lexer (onText acc k).lexer

section
variable {acc text : Bytes} {k : Nat} {p : Parser (Lexer Buffer)} {call : PushCall}
  {calls : List PushCall} {b : Buffer}

/-- A new parser has heard nothing and made no call, and is in the state of one on the empty text.
-/
theorem live_create : Live [] 0 create where
  small := by decide
  state_eq _ _ := rfl
  ahead more hlen := by
    have hok : CharSource.ofPushed.Ok Buffer.new :=
      ok_pushed Buffer.new_sound rfl (by rw [Buffer.new_contents]; decide)
    have hbytes : CharSource.ofPushed.bytes Buffer.new = [] :=
      (Buffer.bytes_pushed rfl).trans Buffer.new_contents
    have hready := Lexer.ready_new hok
    rw [hbytes] at hready
    exact ⟨hlen, rfl, rfl, [], hready, Lexer.ready_ofBytes more⟩

/-- What was heard so far is short enough to be read. -/
theorem Live.small_nil (h : Live acc k p) : (acc ++ []).length < 2 ^ 31 := by
  have hsmall := h.small
  rw [List.append_nil]
  omega

/-- The lexer of such a parser has not met the end of what it heard. -/
theorem Live.eos_eq (h : Live acc k p) : p.lexer.eos = false := (h.ahead [] h.small_nil).eos_eq

/-- The buffer of such a parser is in order, and stores no more than was heard. -/
theorem Live.buffer (h : Live acc k p) : p.lexer.source.Sound ∧ p.lexer.source.reader = none ∧
    p.lexer.source.contents.length ≤ acc.length := by
  obtain ⟨r, hready, -⟩ := (h.ahead [] h.small_nil).ready
  obtain ⟨hfeeds, hreader⟩ := hready.1
  have hleft := hready.left_eq h.eos_eq
  obtain ⟨-, pre, rfl, -⟩ := hready
  refine ⟨hfeeds.sound, hreader, ?_⟩
  rw [← Buffer.bytes_pushed hreader, List.length_append, hleft]
  split
  · rw [List.length_cons]
    exact Nat.le_trans (Nat.le_succ _) (Nat.le_add_left _ _)
  · exact Nat.le_add_left _ _

/-- The buffer takes a text: the parser is in the state of one that has heard all of it, as long as
it has not come to the end. -/
theorem Live.onSource (h : Live acc k p) (hsound : b.Sound) (hreader : b.reader = none)
    (hcontents : b.contents = p.lexer.source.contents ++ text)
    (hsmall : (acc ++ text).length < 2 ^ 29) :
    Live (acc ++ text) k { p with lexer := p.lexer.onSource b } := by
  obtain ⟨-, hreader', hstored⟩ := h.buffer
  have hok : CharSource.ofPushed.Ok b := by
    refine ok_pushed hsound hreader ?_
    rw [hcontents]
    rw [List.length_append] at hsmall ⊢
    omega
  have hbytes : CharSource.ofPushed.bytes b =
      CharSource.ofPushed.bytes p.lexer.source ++ text := by
    refine (Buffer.bytes_pushed hreader).trans ?_
    rw [hcontents, ← Buffer.bytes_pushed hreader']
    rfl
  constructor
  · exact hsmall
  · intro more hlen
    rw [List.append_assoc] at hlen ⊢
    exact h.state_eq _ hlen
  · intro more hlen
    rw [List.append_assoc] at hlen ⊢
    exact (h.ahead _ hlen).extend hok hbytes

/-- A call on the buffer leaves a live parser that has heard what the call has stored, if anything.
-/
theorem Live.push_buffer (h : Live acc k p) (hcall : call ≠ .next) (hfits : call.Fits)
    (hsize : acc.length + call.size < 2 ^ 29) :
    Live (acc ++ p.heardIn call) k (p.push call) := by
  obtain ⟨hsound, hreader, hstored⟩ := h.buffer
  rw [hsound.length_contents] at hstored
  have hsame : Live (acc ++ []) k { p with lexer := p.lexer.onSource p.lexer.source } := by
    rw [List.append_nil]
    exact h
  rw [push, if_neg hcall]
  cases call with
  | next => exact absurd rfl hcall
  | close =>
    exact h.onSource ⟨hsound.size, hsound.small, hsound.head_lt, hsound.tail_lt⟩ hreader
      (List.append_nil _).symm hsame.small
  | setCapacity alloc newcap =>
    rcases Buffer.setCapacity_spec alloc hsound hfits with
      ⟨-, hset⟩ | ⟨-, b, hset, hsound', hcontents, -, -, hreader'⟩
    · rw [PushCall.onBuffer, hset]
      exact hsame
    · rw [PushCall.onBuffer, hset]
      exact h.onSource hsound' (hreader'.trans hreader)
        (hcontents.trans (List.append_nil _).symm) hsame.small
  | write alloc text =>
    have hsize : acc.length + text.length < 2 ^ 29 := hsize
    rcases Buffer.write_spec text alloc hsound (fun _ _ => by omega) with
      ⟨-, hwrite⟩ | ⟨-, b, hwrite, hsound', hcontents, -, hreader'⟩
    · rw [heardIn, PushCall.onBuffer, hwrite, if_pos (by simp)]
      exact hsame
    · rw [heardIn, PushCall.onBuffer, hwrite, if_neg (by simp [h.eos_eq])]
      exact h.onSource hsound' (hreader'.trans hreader) hcontents
        (by rw [List.length_append]; exact hsize)

/-- A call of `ELTN_Parser_next` may come to the end of what was heard, and then nothing written
later is heard. -/
theorem Live.push_next (h : Live acc k p) :
    Live acc (k + 1) (p.push .next) ∨ Deaf acc (k + 1) (p.push .next) := by
  have hpush : p.push .next = p.next (.ofLexer .ofPushed) := by
    obtain ⟨r, hready, -⟩ := (h.ahead [] h.small_nil).ready
    rw [push, if_pos rfl, nextEvent]
    have hsmall : acc.length < 2 ^ 31 := (h.ahead [] h.small_nil).small_src
    exact next_congr rfl rfl ⟨_, _, hsmall, ready_ofBuffer hready⟩ ⟨_, _, hsmall, hready⟩
  rw [hpush]
  cases heos : (p.next (.ofLexer .ofPushed)).lexer.eos with
  | false =>
    have hnext : ∀ more, (acc ++ more).length < 2 ^ 31 → _ := fun more hlen =>
      (next_ahead (h.state_eq more hlen) (h.ahead more hlen)).resolve_left (by simp [heos])
    refine .inl ⟨h.small, fun more hlen => ?_, fun more hlen => ?_⟩
    · rw [onText_succ]
      exact (hnext more hlen).1
    · rw [onText_succ]
      exact (hnext more hlen).2
  | true =>
    have hstate := h.state_eq [] h.small_nil
    have hahead := h.ahead [] h.small_nil
    rw [List.append_nil] at hstate hahead
    have hsim : Sim (.ofLexer .ofPushed) (.ofLexer .ofBytes) p (onText acc k) :=
      ⟨hstate, hahead.sim⟩
    have hnext := hsim.next
    refine .inr ⟨?_, ?_⟩
    · rw [onText_succ]
      exact hnext.state_eq
    · rw [onText_succ]
      exact Lexer.over_of_sim hnext.lexer heos

/-- A parser that hears no more hears nothing in the next call either, and its calls go on as those
on the text it has heard. -/
theorem Deaf.push (h : Deaf acc k p) (call : PushCall) :
    p.heardIn call = [] ∧ Deaf acc (k + if call = .next then 1 else 0) (p.push call) := by
  have heos := h.ended.eos_eq
  cases call with
  | next =>
    obtain ⟨hstate, hended⟩ := next_over .ofBuffer h.state_eq h.ended
    rw [if_pos rfl]
    refine ⟨rfl, ?_, ?_⟩
    · rw [onText_succ]
      exact hstate
    · rw [onText_succ]
      exact hended
  | write alloc text => exact ⟨by rw [heardIn, heos]; rfl, h.state_eq, h.ended.onSource _⟩
  | setCapacity alloc newcap => exact ⟨rfl, h.state_eq, h.ended.onSource _⟩
  | close => exact ⟨rfl, h.state_eq, h.ended.onSource _⟩

/-- **Runs.** Behind any calls the parser is in the state of a parser on what it has heard, after as
many calls of `ELTN_Parser_next`. By induction on the calls. -/
theorem run_push (calls : List PushCall) : ∀ {acc : Bytes} {k : Nat} {p : Parser (Lexer Buffer)},
    Live acc k p ∨ Deaf acc k p → acc.length + offered calls < 2 ^ 29 →
    (∀ call ∈ calls, call.Fits) →
    (Runs.run push p calls).toParserState =
      (onText (acc ++ heard p calls) (k + calls.count .next)).toParserState := by
  induction calls with
  | nil =>
    rintro acc k p (h | h) - -
    · exact h.state_eq [] h.small_nil
    · rw [heard, List.append_nil]
      exact h.state_eq
  | cons call calls ih =>
    intro acc k p h hsize hfits
    have hoffered : offered (call :: calls) = call.size + offered calls := rfl
    obtain ⟨hfit, hfits⟩ := List.forall_mem_cons.mp hfits
    rw [Runs.run_cons, heard, ← List.append_assoc, List.count_cons, Nat.add_comm (calls.count _),
      ← Nat.add_assoc]
    have hlen : (acc ++ p.heardIn call).length ≤ acc.length + call.size := by
      rw [List.length_append]
      exact Nat.add_le_add_left (length_heardIn p call) _
    refine ih ?_ (by omega) hfits
    rcases h with h | h
    · rcases eq_or_ne call .next with rfl | hcall
      · rw [show p.heardIn .next = [] from rfl, List.append_nil]
        exact h.push_next
      · have hlive := h.push_buffer hcall hfit (by omega)
        rw [if_neg (by simpa using hcall)]
        exact .inl hlive
    · obtain ⟨hnone, hdeaf⟩ := h.push call
      rw [hnone, List.append_nil]
      simpa using Or.inr hdeaf

/-- **What is written between the calls of `ELTN_Parser_next` is parsed up to the call that comes
to the end of it.** For every sequence of calls on a new parser that write less than 2²⁹ bytes
together, in any order, with any outcome of the allocations and any capacities that are an `int`:
the parser ends in the state of a parser that reads the texts it has heard as one text, behind as
many calls of `ELTN_Parser_next`. It hears the texts that the buffer takes before the lexer comes to
the end of what the buffer stores, and no others. -/
theorem push_eq_readString (calls : List PushCall) (hsize : offered calls < 2 ^ 29)
    (hfits : ∀ call ∈ calls, call.Fits) :
    (Runs.run push create calls).toParserState =
      (nextEvent^[calls.count .next] (create.readString (heard create calls)).2).toParserState := by
  have hrun := run_push calls (.inl live_create) (by simpa using hsize) hfits
  rw [List.nil_append, Nat.zero_add] at hrun
  have hheard : (heard create calls).length < 2 ^ 29 :=
    Nat.lt_of_le_of_lt (length_heard calls create) hsize
  obtain ⟨hfeeds, hbytes⟩ := readString_feeds hheard
  have hlen : (heard create calls).length < 2 ^ 31 := by omega
  have htext := after_scan .ofBytes (s := heard create calls) trivial hlen (calls.count .next)
  have hstring := after_scan .ofBuffer hfeeds
    (by rw [show CharSource.ofBuffer.bytes _ = heard create calls from hbytes]; exact hlen)
    (calls.count .next)
  rw [show CharSource.ofBuffer.bytes _ = heard create calls from hbytes] at hstring
  exact hrun.trans (htext.trans hstring.symm)

/-- A definition that is written in two parts, with a call of `ELTN_Parser_next` between them. -/
theorem push_eq_readString_example :
    let calls := [.write true (ascii "a = "), .next, .write true (ascii "1 "), .next, .close, .next]
    (Runs.run push create calls).toParserState =
      (nextEvent^[calls.count .next] (create.readString (heard create calls)).2).toParserState :=
  push_eq_readString _ (by decide) (by simp [PushCall.Fits])

end

end Parser

end Eltn
