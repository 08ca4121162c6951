import Eltn.Lexer.Basic

/-!
# Where the parser gets its tokens

The parser reads tokens through two functions of the lexer, `ELTN_Lexer_next_token` and
`ELTN_Lexer_token_string`. A `TokenSource` is a state with these two functions and the list of the
tokens they deliver before the end of the input. A `Stream` is the source that holds its tokens in
memory, and keeps those read.
-/

namespace Eltn

/-- A token with its text and the position reported for it, as a caller of the lexer sees them. -/
structure Lexeme where
  token : Token
  text : Bytes := []
  line : Nat := 0
  column : Nat := 0
deriving DecidableEq, Repr

namespace Lexeme

/-- What `ELTN_Lexer_next_token` returns for the token. -/
def report (x : Lexeme) : Token × Nat × Nat := (x.token, x.line, x.column)

@[simp] theorem report_fst (x : Lexeme) : x.report.1 = x.token := rfl

/-- A comment, which the parser passes over. -/
def isComment (x : Lexeme) : Bool := x.token = .comment || x.token = .longComment

end Lexeme

/-- A source of tokens: the finitely many `lexemes`, none of them an end of input or an error, and
then `final`, the end of the input, for good. The laws hold of the states that are `Ok`, and reading
keeps a state `Ok`. `limit` is more than the number of tokens left. -/
structure TokenSource (τ : Type) where
  nextToken : τ → (Token × Nat × Nat) × τ
  tokenString : τ → Bytes
  limit : τ → Nat
  lexemes : τ → List Lexeme
  final : τ → Lexeme
  Ok : τ → Prop
  nextToken_fst : ∀ {s}, Ok s → (nextToken s).1 = ((lexemes s).headD (final s)).report
  tokenString_nextToken : ∀ {s}, Ok s →
    tokenString (nextToken s).2 = ((lexemes s).headD (final s)).text
  lexemes_nextToken : ∀ {s}, Ok s → lexemes (nextToken s).2 = (lexemes s).tail
  final_nextToken : ∀ {s}, Ok s → final (nextToken s).2 = final s
  final_token : ∀ {s}, Ok s → (final s).token = .eof
  token_ne : ∀ {s}, Ok s → ∀ x ∈ lexemes s, x.token ≠ .eof ∧ x.token ≠ .error
  lt_limit : ∀ {s}, Ok s → (lexemes s).length < limit s
  ok_nextToken : ∀ {s}, Ok s → Ok (nextToken s).2

/-- Tokens in memory: those still to be read, the end of the input, and those read, the last one
first. -/
structure Stream where
  rest : List Lexeme
  final : Lexeme
  read : List Lexeme := []
  token_ne : ∀ x ∈ rest, x.token ≠ .eof ∧ x.token ≠ .error
  final_token : final.token = .eof

namespace Stream

/-- The token that is read next. -/
def next (s : Stream) : Lexeme := s.rest.headD s.final

/-- The stream behind its next token, which is the last one read; behind all tokens that is the end
of the input. -/
def advance (s : Stream) : Stream where
  rest := s.rest.tail
  final := s.final
  read := s.next :: s.read
  token_ne x hx := s.token_ne x (List.mem_of_mem_tail hx)
  final_token := s.final_token

/-- The tokens left that are not comments. -/
def significant (s : Stream) : List Lexeme := s.rest.filter (!·.isComment)

end Stream

/-- Streams as sources of tokens: the laws of a source hold by definition. -/
def TokenSource.stream : TokenSource Stream where
  nextToken s := (s.next.report, s.advance)
  tokenString s := (s.read.head?.map (·.text)).getD []
  limit s := s.rest.length + 1
  lexemes s := s.rest
  final s := s.final
  Ok _ := True
  nextToken_fst _ := rfl
  tokenString_nextToken _ := rfl
  lexemes_nextToken _ := rfl
  final_nextToken _ := rfl
  final_token {s} _ := s.final_token
  token_ne {s} _ := s.token_ne
  lt_limit _ := Nat.lt_succ_self _
  ok_nextToken _ := trivial

end Eltn
