import Eltn.Lexer.Spans
import Eltn.Parser.Tokens

/-!
# The lexer as a source of tokens

The tokens that the lexer still delivers are found by running it (`Lexer.lexemes`). They depend on
the bytes that are left and on the bytes before them alone (`Ready.lexemes_eq`), so lexers on
different sources of the same bytes deliver the same tokens.
-/

namespace Eltn

namespace Lexer

variable {σ : Type} (cs : CharSource σ)

/-- The next token with its text and position. -/
def lexeme (self : Lexer σ) : Lexeme :=
  let read := nextToken cs self
  ⟨read.1.1, read.2.tokenString, read.1.2.1, read.1.2.2⟩

/-- Up to `n` tokens before the end of the input, with their texts and positions, as calls one after
the other give them. -/
def lexemesUpTo : Nat → Lexer σ → List Lexeme
  | 0, _ => []
  | n + 1, self =>
    if (lexeme cs self).token = .eof then []
    else lexeme cs self :: lexemesUpTo n (nextToken cs self).2

/-- The tokens before the end of the input. -/
def lexemes (self : Lexer σ) : List Lexeme := lexemesUpTo cs (limit cs self) self

/-- The end of the input. -/
def final (self : Lexer σ) : Lexeme := lexeme cs (after cs self (limit cs self))

end Lexer

/-! ## The tokens of bytes -/

/-- The next token of the bytes `r` at the end of `src`. -/
def Scan.lexeme (src r : Bytes) : Lexeme :=
  let pre := src.take (src.length - (r.dropWhile isSpace).length)
  ⟨(scan r).token, (scan r).text, lineAfter pre, columnAfter pre⟩

/-- Up to `n` tokens of the bytes `r` at the end of `src`, which the positions are counted in. -/
def Scan.lexemesUpTo (src : Bytes) : Nat → Bytes → List Lexeme
  | 0, _ => []
  | n + 1, r =>
    if (scan r).token = .eof then [] else Scan.lexeme src r :: lexemesUpTo src n (scan r).rest

/-- The end of the input behind `src`. -/
def Scan.final (src : Bytes) : Lexeme := ⟨.eof, [], lineAfter src, columnAfter src⟩

section
variable {r : Bytes}

/-- A scan reads something, or there is only whitespace left. -/
theorem scan_rest (r : Bytes) :
    (scan r = ⟨.eof, [], []⟩ ∧ r.dropWhile isSpace = []) ∨
      ((scan r).token ≠ .eof ∧ (scan r).token ≠ .error) ∧ (scan r).rest.length < r.length := by
  by_cases hr : r.dropWhile isSpace = []
  · exact .inl ⟨scan_eq_eof hr, hr⟩
  · obtain ⟨htok, span, gap, hne, hcut, -, -⟩ := scan_cuts hr
    refine .inr ⟨htok, ?_⟩
    have hspan := List.length_pos_iff.mpr hne
    have hlen := congrArg List.length hcut
    have hle := (List.dropWhile_suffix isSpace (l := r)).length_le
    simp only [List.length_append] at hlen
    omega

namespace Scan

/-- At the end of the input there are no tokens. -/
theorem lexemesUpTo_eof (src : Bytes) (n : Nat) (h : (scan r).token = .eof) :
    lexemesUpTo src n r = [] := by
  cases n with
  | zero => rfl
  | succ n => rw [lexemesUpTo, if_pos h]

/-- More turns than bytes find no more tokens, since each token takes a byte at least. -/
theorem lexemesUpTo_eq (src : Bytes) (n : Nat) : ∀ {m : Nat} {r : Bytes}, r.length ≤ n →
    r.length ≤ m → lexemesUpTo src n r = lexemesUpTo src m r := by
  induction n with
  | zero =>
    intro m r hn _
    obtain rfl := List.eq_nil_of_length_eq_zero (Nat.le_zero.mp hn)
    rw [lexemesUpTo_eof src m rfl]
    rfl
  | succ n ih =>
    intro m r hn hm
    rcases scan_rest r with ⟨hscan, -⟩ | ⟨⟨heof, -⟩, hlt⟩
    · have heof : (scan r).token = .eof := by rw [hscan]
      rw [lexemesUpTo_eof src _ heof, lexemesUpTo_eof src _ heof]
    · obtain ⟨m, rfl⟩ : ∃ k, m = k + 1 := ⟨m - 1, by omega⟩
      rw [lexemesUpTo, lexemesUpTo, if_neg heof, if_neg heof]
      congr 1
      exact ih (by omega) (by omega)

/-- A token is read from at least one byte. So a limit above the number of bytes is above the number
of tokens. -/
theorem length_lexemesUpTo (src : Bytes) (n : Nat) : ∀ r : Bytes,
    (lexemesUpTo src n r).length ≤ r.length := by
  induction n with
  | zero => exact fun r => Nat.zero_le _
  | succ n ih =>
    intro r
    rw [lexemesUpTo]
    rcases scan_rest r with ⟨hscan, -⟩ | ⟨⟨heof, -⟩, hlt⟩
    · rw [hscan, if_pos rfl]
      exact Nat.zero_le _
    · have := ih (scan r).rest
      rw [if_neg heof, List.length_cons]
      omega

/-- No token of the list is the end of the input, nor an error: the lexer reports neither inside of
it. -/
theorem token_ne (src : Bytes) (n : Nat) : ∀ r : Bytes,
    ∀ x ∈ lexemesUpTo src n r, x.token ≠ .eof ∧ x.token ≠ .error := by
  induction n with
  | zero => exact fun r => nofun
  | succ n ih =>
    intro r
    rw [lexemesUpTo]
    rcases scan_rest r with ⟨hscan, -⟩ | ⟨htok, -⟩
    · rw [hscan, if_pos rfl]
      nofun
    · rw [if_neg htok.1]
      exact List.forall_mem_cons.mpr ⟨htok, ih _⟩

/-- The first token of the bytes left, or the end of the input. -/
theorem headD_lexemesUpTo {src : Bytes} {n : Nat} (hn : r.length ≤ n) :
    (lexemesUpTo src n r).headD (final src) = lexeme src r := by
  rcases scan_rest r with ⟨hscan, hspace⟩ | ⟨⟨heof, -⟩, hlt⟩
  · rw [lexemesUpTo_eof src n (by rw [hscan]), lexeme, hscan, hspace, List.headD_nil,
      List.length_nil, Nat.sub_zero, List.take_length, final]
  · obtain ⟨n, rfl⟩ : ∃ k, n = k + 1 := ⟨n - 1, by omega⟩
    rw [lexemesUpTo, if_neg heof, List.headD_cons]

/-- The tokens behind the first one. -/
theorem tail_lexemesUpTo {src : Bytes} {n m : Nat} (hn : r.length ≤ n)
    (hm : (scan r).rest.length ≤ m) :
    (lexemesUpTo src n r).tail = lexemesUpTo src m (scan r).rest := by
  rcases scan_rest r with ⟨hscan, -⟩ | ⟨⟨heof, -⟩, hlt⟩
  · rw [lexemesUpTo_eof src n (by rw [hscan]), hscan, lexemesUpTo_eof src m rfl]
    rfl
  · obtain ⟨n, rfl⟩ : ∃ k, n = k + 1 := ⟨n - 1, by omega⟩
    rw [lexemesUpTo, if_neg heof, List.tail_cons]
    exact lexemesUpTo_eq src n (by omega) hm

end Scan

end

/-! ## The tokens of a lexer -/

namespace Lexer

section
variable {σ : Type} {cs : CharSource σ} {src r : Bytes} {self : Lexer σ}

/-- The next token is that of the bytes left, with its text and the position of its first byte, and
the lexer is ready for the one behind. -/
theorem Ready.lexeme_eq (hlen : src.length < 2 ^ 31) (h : Ready cs src r self) :
    lexeme cs self = Scan.lexeme src r ∧ Ready cs src (scan r).rest (nextToken cs self).2 := by
  obtain ⟨⟨htok, htext, hready⟩, hpos⟩ := nextToken_agrees h
  obtain ⟨pre, hsrc, hlc⟩ := hpos hlen
  refine ⟨?_, hready⟩
  have hpre : src.take (src.length - (r.dropWhile isSpace).length) = pre := by
    rw [hsrc, List.length_append, Nat.add_sub_cancel, List.take_left]
  have htok' : (nextToken cs self).1.1 = (scan r).token := htok
  have htext' : (nextToken cs self).2.tokenString = (scan r).text := htext
  rw [lexeme, Scan.lexeme, hpre, htok', htext', hlc]

/-- The calls of the lexer list the tokens that are scanned from its bytes, with their positions. By
induction on the number of calls. -/
theorem Ready.lexemesUpTo_eq (hlen : src.length < 2 ^ 31) (n : Nat) :
    ∀ {r : Bytes} {self : Lexer σ}, Ready cs src r self →
      lexemesUpTo cs n self = Scan.lexemesUpTo src n r := by
  induction n with
  | zero => exact fun _ => rfl
  | succ n ih =>
    intro r self h
    obtain ⟨hlexeme, hready⟩ := h.lexeme_eq hlen
    rw [lexemesUpTo, Scan.lexemesUpTo, hlexeme, ih hready]
    rfl

/-- The tokens left are those of the bytes left. -/
theorem Ready.lexemes_eq (hlen : src.length < 2 ^ 31) (h : Ready cs src r self) :
    lexemes cs self = Scan.lexemesUpTo src r.length r := by
  have hle : r.length ≤ limit cs self := h.length_le.trans (Nat.le_succ _)
  rw [lexemes, h.lexemesUpTo_eq hlen, Scan.lexemesUpTo_eq src _ hle le_rfl]

/-- The end of the input stands behind all bytes, at the position that is told from them. As many
calls as there are bytes take all of them, by induction on their number. -/
theorem Ready.final_eq (hlen : src.length < 2 ^ 31) (h : Ready cs src r self) :
    final cs self = Scan.final src := by
  have hafter : ∀ n {r : Bytes} {self : Lexer σ}, r.length ≤ n → Ready cs src r self →
      lexeme cs (after cs self n) = Scan.final src := by
    intro n
    induction n with
    | zero =>
      intro r self hn h
      obtain rfl := List.eq_nil_of_length_eq_zero (Nat.le_zero.mp hn)
      refine (h.lexeme_eq hlen).1.trans ?_
      rw [Scan.lexeme, List.dropWhile_nil, List.length_nil, Nat.sub_zero, List.take_length]
      rfl
    | succ n ih =>
      intro r self hn h
      rw [after_succ]
      refine ih ?_ (h.lexeme_eq hlen).2
      rcases scan_rest r with ⟨hscan, -⟩ | ⟨-, hlt⟩
      · rw [hscan]
        exact Nat.zero_le n
      · omega
  exact hafter _ (h.length_le.trans (Nat.le_succ _)) h

end

/-- Between two tokens of an input of less than 2³¹ bytes. -/
def Between {σ : Type} (cs : CharSource σ) (self : Lexer σ) : Prop :=
  ∃ src r, src.length < 2 ^ 31 ∧ Ready cs src r self

section
variable {σ : Type} {cs : CharSource σ} {self : Lexer σ}

/-- The next call reports the first token of the list, or the end of the input. -/
theorem Between.report_eq (h : Between cs self) :
    (nextToken cs self).1 = ((lexemes cs self).headD (final cs self)).report := by
  obtain ⟨src, r, hlen, h⟩ := h
  rw [h.lexemes_eq hlen, h.final_eq hlen, Scan.headD_lexemesUpTo le_rfl, ← (h.lexeme_eq hlen).1]
  rfl

/-- Its text is the one of that token. -/
theorem Between.text_eq (h : Between cs self) :
    (nextToken cs self).2.tokenString = ((lexemes cs self).headD (final cs self)).text := by
  obtain ⟨src, r, hlen, h⟩ := h
  rw [h.lexemes_eq hlen, h.final_eq hlen, Scan.headD_lexemesUpTo le_rfl, ← (h.lexeme_eq hlen).1]
  rfl

/-- Behind it the list is shorter by that token. -/
theorem Between.lexemes_eq (h : Between cs self) :
    lexemes cs (nextToken cs self).2 = (lexemes cs self).tail := by
  obtain ⟨src, r, hlen, h⟩ := h
  rw [h.lexemes_eq hlen, (h.lexeme_eq hlen).2.lexemes_eq hlen, Scan.tail_lexemesUpTo le_rfl le_rfl]

/-- The end of the input stays where it is. -/
theorem Between.final_eq (h : Between cs self) :
    final cs (nextToken cs self).2 = final cs self := by
  obtain ⟨src, r, hlen, h⟩ := h
  rw [h.final_eq hlen, (h.lexeme_eq hlen).2.final_eq hlen]

/-- It is the end of the input. -/
theorem Between.final_token (h : Between cs self) : (final cs self).token = .eof := by
  obtain ⟨src, r, hlen, h⟩ := h
  rw [h.final_eq hlen]
  rfl

/-- No token of the list is the end of the input or an error. -/
theorem Between.token_ne (h : Between cs self) :
    ∀ x ∈ lexemes cs self, x.token ≠ .eof ∧ x.token ≠ .error := by
  obtain ⟨src, r, hlen, h⟩ := h
  rw [h.lexemes_eq hlen]
  exact Scan.token_ne src _ r

/-- There are fewer tokens than the loops of the parser have turns. -/
theorem Between.lt_limit (h : Between cs self) : (lexemes cs self).length < limit cs self := by
  obtain ⟨src, r, hlen, h⟩ := h
  have hle := Scan.length_lexemesUpTo src r.length r
  have hlimit := h.length_le
  rw [h.lexemes_eq hlen, limit]
  omega

/-- Behind a call the lexer stands between two tokens again. -/
theorem Between.next (h : Between cs self) : Between cs (nextToken cs self).2 := by
  obtain ⟨src, r, hlen, h⟩ := h
  exact ⟨src, _, hlen, (h.lexeme_eq hlen).2⟩

end

end Lexer

/-- Lexers as sources of tokens: the laws of a source hold between two calls, where a lexer is ready
for the next token. -/
def TokenSource.ofLexer {σ : Type} (cs : CharSource σ) : TokenSource (Lexer σ) where
  nextToken := Lexer.nextToken cs
  tokenString := Lexer.tokenString
  limit := Lexer.limit cs
  lexemes := Lexer.lexemes cs
  final := Lexer.final cs
  Ok := Lexer.Between cs
  nextToken_fst := Lexer.Between.report_eq
  tokenString_nextToken := Lexer.Between.text_eq
  lexemes_nextToken := Lexer.Between.lexemes_eq
  final_nextToken := Lexer.Between.final_eq
  final_token := Lexer.Between.final_token
  token_ne := Lexer.Between.token_ne
  lt_limit := Lexer.Between.lt_limit
  ok_nextToken := Lexer.Between.next

end Eltn
