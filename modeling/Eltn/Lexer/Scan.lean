import Eltn.Lexer.Basic

/-!
# The lexer as a function of the bytes left

`scan` reads one token off the front of a byte list: the loops of the lexer become recursions on
the list, and the one character put back is simply not taken. `nextToken_agrees` is the refinement:
between two tokens the state of the lexer stands for the list of the bytes still to be lexed
(`Ready`), and `nextToken` does on the state what `scan` does on that list. The state between two
`getNextChar` is described by `At`, which keeps the character just read at the head of the list and
the position counters in step with what precedes it.
-/

namespace Eltn

/-- The token at the front of a byte list, its text and the bytes after it. The functions below read
it from the list at once, without a lexer's state. -/
structure Scan where
  token : Token
  text : Bytes
  rest : Bytes

namespace Scan

open Lexer

/-- A quoted string after `text`, `prev` being the last byte kept: what the loop of
`consume_until_matching_quote` makes of the bytes. -/
def quote (q : UInt8) : UInt8 → Bytes → Bytes → Scan
  | _, text, [] => ⟨.invalid, text, []⟩
  | prev, text, c :: r =>
    if c = 0x0D then quote q prev text r
    else if c = 0x0A ∧ prev ≠ 0x5C ∧ !tokenBufferEndsWith text (ascii "\\z") then
      ⟨.invalid, text, r⟩
    else if c = q ∧ prev ≠ 0x5C then ⟨.string, text ++ [c], r⟩
    else quote q c (text ++ [c]) r

/-- `text` with the next byte, unless that is a carriage return. -/
def keep (text : Bytes) (c : UInt8) : Bytes := if c = 0x0D then text else text ++ [c]

/-- A comment after `text`, with the state of the loop of `consume_until_end_of_comment`. -/
def comment : Bool → Int → Bytes → Bytes → Scan
  | isLong, _, text, [] => ⟨if isLong then .invalid else .comment, text, []⟩
  | isLong, depth, text, c :: r =>
    let text := keep text c
    let start := if isLong then (true, depth) else inLongBracket text (ascii "--[") depth
    if !start.1 ∧ c = 0x0A then ⟨.comment, text, r⟩
    else if start.1 ∧ endsWithLongBracket text start.2 then ⟨.longComment, text, r⟩
    else comment start.1 start.2 text r

/-- A long string after `text`, with the state of the loop of `parse_long_string`. -/
def longString : Bool → Int → Bytes → Bytes → Scan
  | _, _, text, [] => ⟨.invalid, text, []⟩
  | pastOpen, depth, text, c :: r =>
    let text := keep text c
    let past := if pastOpen then (true, depth) else inLongBracket text (ascii "[") depth
    if !past.1 ∧ (c ≠ 0x3D ∨ past.2 < 0) then ⟨.invalid, text, r⟩
    else if past.1 ∧ endsWithLongBracket text past.2 then ⟨.longString, text, r⟩
    else longString past.1 past.2 text r

/-- A run of bytes of one class after `text`, classified by `f`. -/
def run (p : UInt8 → Bool) (f : Bytes → Token) (text r : Bytes) : Scan :=
  ⟨f (text ++ r.takeWhile p), text ++ r.takeWhile p, r.dropWhile p⟩

/-- The token that starts with the byte `c`, before the bytes `r`: the cases of the `switch` in
their order. -/
def lead (c : UInt8) (r : Bytes) : Scan :=
  if c = 0x5B then
    match r with
    | d :: r' =>
      if d = 0x5B ∨ d = 0x3D then longString (d = 0x5B) 0 [c, d] r'
      else ⟨.squareOpen, [c], r⟩
    | [] => ⟨.squareOpen, [c], []⟩
  else match punctuation c with
  | some t => ⟨t, [c], r⟩
  | none =>
    if isDigit c ∨ c = 0x2E then run isNumberPart numberToken [c] r
    else if c = 0x2D then
      match r with
      | d :: r' =>
        if d = 0x2D then comment false 0 [c, d] r'
        else if isDigit d ∨ d = 0x2E then run isNumberPart numberToken [c, d] r'
        else ⟨.invalid, [c], r⟩
      | [] => ⟨.invalid, [c], []⟩
    else if c = 0x27 ∨ c = 0x22 then quote c c [c] r
    else if isNameStart c then run isNamePart nameToken [c] r
    else ⟨.invalid, [c], r⟩

end Scan

/-- The first token of a byte list, behind its whitespace; the end of the input has no text. -/
def scan (r : Bytes) : Scan :=
  match r.dropWhile isSpace with
  | [] => ⟨.eof, [], []⟩
  | c :: r => Scan.lead c r

/-! ## Positions -/

/-- The line of the byte that follows `pre`. -/
def lineAfter (pre : Bytes) : Nat := 1 + pre.count 0x0A

/-- The column of the byte that follows `pre`. -/
def columnAfter (pre : Bytes) : Nat := 1 + (pre.reverse.takeWhile (· ≠ 0x0A)).length

/-- A newline starts a line. -/
theorem lineAfter_concat (pre : Bytes) (c : UInt8) :
    lineAfter (pre ++ [c]) = lineAfter pre + if c = 0x0A then 1 else 0 := by
  simp [lineAfter, List.count_append, List.count_singleton]
  omega

/-- A newline starts the columns again, and any other byte is one column. -/
theorem columnAfter_concat (pre : Bytes) (c : UInt8) :
    columnAfter (pre ++ [c]) = if c = 0x0A then 1 else columnAfter pre + 1 := by
  by_cases hc : c = 0x0A <;> simp [columnAfter, hc]
  omega

/-- There are no more lines than bytes and one. -/
theorem lineAfter_le (pre : Bytes) : lineAfter pre ≤ pre.length + 1 := by
  have := List.count_le_length (a := (0x0A : UInt8)) (l := pre)
  unfold lineAfter
  omega

/-- There are no more columns than bytes and one, so the counters of a short input do not overflow.
-/
theorem columnAfter_le (pre : Bytes) : columnAfter pre ≤ pre.length + 1 := by
  have := (List.takeWhile_prefix (l := pre.reverse) (· ≠ 0x0A)).length_le
  rw [List.length_reverse] at this
  unfold columnAfter
  omega

namespace Lexer

variable {σ : Type} {cs : CharSource σ}

/-! ## The state while a token is read -/

/-- The lexer has read the character at the front of `r`, with `pre` before it. The counters are
meant for inputs of less than 2³¹ bytes. -/
structure At (cs : CharSource σ) (pre r : Bytes) (curr : Option UInt8) (l : Lexer σ) : Prop where
  ok : cs.Ok l.source
  curr_eq : curr = r.head?
  bytes_eq : cs.bytes l.source = r.tail
  pushback_eq : l.pushback = false
  eos_eq : l.eos = r.isEmpty
  char_eq : ∀ c ∈ r.head?, l.currentChar = c
  pos : pre.length + r.length < 2 ^ 31 →
    l.count = pre.length + 1 ∧ l.line = lineAfter pre ∧ l.column = columnAfter pre

section
variable {pre r : Bytes} {c : UInt8} {curr : Option UInt8} {self : Lexer σ}

/-- The token buffer is no part of the reading state. -/
theorem At.append (h : At cs pre r curr self) (cp : Option UInt8) :
    At cs pre r curr (self.tokenBufferAppend cp) := by
  cases cp with
  | none => exact h
  | some c => exact ⟨h.ok, h.curr_eq, h.bytes_eq, h.pushback_eq, h.eos_eq, h.char_eq, h.pos⟩

/-- Where the lexer stands has nothing to do with the token buffer. -/
theorem At.clear (h : At cs pre r curr self) : At cs pre r curr self.tokenBufferClear :=
  ⟨h.ok, h.curr_eq, h.bytes_eq, h.pushback_eq, h.eos_eq, h.char_eq, h.pos⟩

/-- The counters after one more character are the line and the column of the place behind it, as
long as none of them wraps around. -/
theorem At.advance_pos (h : At cs pre (c :: r) curr self)
    (hlen : (pre ++ [c]).length + r.length < 2 ^ 31) :
    (self.advance c).count = (pre ++ [c]).length + 1 ∧
      (self.advance c).line = lineAfter (pre ++ [c]) ∧
      (self.advance c).column = columnAfter (pre ++ [c]) := by
  obtain ⟨hcount, hline, hcol⟩ := h.pos (by simp at hlen ⊢; omega)
  have hl := lineAfter_le pre
  have hk := columnAfter_le pre
  have hlen' : pre.length + 1 < 2 ^ 31 := by simp at hlen; omega
  have h1 : ((self.count + 1) % 2 ^ 32) ≠ 1 := by omega
  rw [lineAfter_concat, columnAfter_concat, List.length_append, List.length_singleton]
  refine ⟨by simp only [advance]; omega, ?_, ?_⟩ <;>
    by_cases hc : c = 0x0A <;> simp only [advance, h1, hc, false_or, if_true, if_false] <;> omega

/-- Reading on at a character of the input comes to the next one, or to the end of it. -/
theorem At.next (h : At cs pre (c :: r) curr self) :
    At cs (pre ++ [c]) r (self.getNextChar cs).1 (self.getNextChar cs).2 := by
  have hchar : self.currentChar = c := h.char_eq c rfl
  have hfst := cs.nextChar_fst h.ok
  have hbytes := cs.bytes_nextChar h.ok
  have hok := cs.ok_nextChar h.ok
  rw [h.bytes_eq, List.tail_cons] at hfst hbytes
  unfold getNextChar
  simp only [h.pushback_eq, h.eos_eq, List.isEmpty_cons, hchar, Bool.false_eq_true, if_false]
  cases r with
  | nil =>
    rw [hfst]
    exact ⟨hok, rfl, hbytes, h.pushback_eq, rfl, by simp, h.advance_pos⟩
  | cons d r =>
    rw [hfst]
    exact ⟨hok, rfl, hbytes, h.pushback_eq, h.eos_eq, by simp, h.advance_pos⟩

/-- Reading on at the end of the input. -/
theorem At.next_nil (h : At cs pre [] curr self) : self.getNextChar cs = (none, self) := by
  simp [getNextChar, h.pushback_eq, h.eos_eq]

/-- To read a character leaves the token buffer alone. -/
@[simp] theorem tokenBuffer_getNextChar (self : Lexer σ) :
    (self.getNextChar cs).2.tokenBuffer = self.tokenBuffer := by
  unfold getNextChar
  split
  · rfl
  · split
    · rfl
    · dsimp only
      split <;> rfl

/-- To append a character puts it behind the token. -/
@[simp] theorem tokenBuffer_append_some (self : Lexer σ) (c : UInt8) :
    (self.tokenBufferAppend (some c)).tokenBuffer = self.tokenBuffer ++ [c] := rfl

/-! ## The state between two tokens -/

/-- The lexer stands before the bytes `r` of `src`: the next character it reads is the first of
them. After the end of the input a character put back is the last one once more; the lexer does not
look at it. -/
def Ready (cs : CharSource σ) (src r : Bytes) (self : Lexer σ) : Prop :=
  cs.Ok self.source ∧ ∃ pre, src = pre ++ r ∧
    At cs pre r (if (self.getNextChar cs).2.eos then none else (self.getNextChar cs).1)
      (self.getNextChar cs).2

/-- At the end of the input there is no character, as the source has it for the loops that test
`eos`. -/
theorem At.curr_ite (h : At cs pre r curr self) : (if self.eos then none else curr) = curr := by
  rw [h.eos_eq, h.curr_eq]
  cases r <;> rfl

/-- The character read belongs to the token. -/
theorem At.ready_next (h : At cs pre (c :: r) curr self) : Ready cs (pre ++ c :: r) r self :=
  ⟨h.ok, pre ++ [c], by simp, by rw [h.next.curr_ite]; exact h.next⟩

/-- The end of the input has been read. -/
theorem At.ready_nil (h : At cs pre [] curr self) : Ready cs (pre ++ []) [] self := by
  refine ⟨h.ok, pre, rfl, ?_⟩
  rw [h.next_nil]
  have hc : curr = none := h.curr_eq
  cases hc
  simpa using h

/-- The character read is put back, so that the next call starts with it. -/
theorem At.ready_pushback (h : At cs pre r curr self) :
    Ready cs (pre ++ r) r { self with pushback := true } := by
  refine ⟨h.ok, pre, rfl, ?_⟩
  have hself : { self with pushback := false } = self := by
    cases self; cases h.pushback_eq; rfl
  have hg : getNextChar cs { self with pushback := true } = (some self.currentChar, self) := by
    simp [getNextChar, hself]
  rw [hg]
  have hcur : (if self.eos then none else some self.currentChar) = curr := by
    rw [h.eos_eq, h.curr_eq]
    cases r with
    | nil => rfl
    | cons c r => simpa using h.char_eq c rfl
  dsimp only
  rw [hcur]
  exact h

end

/-- No more bytes are left than the source has, and one put back; so the turns that a loop is given
are enough. -/
theorem Ready.length_le {src r : Bytes} {self : Lexer σ} (h : Ready cs src r self) :
    r.length ≤ (cs.bytes self.source).length + 1 := by
  obtain ⟨hok, pre, -, hat⟩ := h
  have hbytes := hat.bytes_eq
  have htail : (cs.bytes (self.getNextChar cs).2.source).length ≤
      (cs.bytes self.source).length := by
    unfold getNextChar
    split
    · exact le_rfl
    split
    · exact le_rfl
    · have hnext : (cs.bytes (cs.nextChar self.source).2).length ≤
          (cs.bytes self.source).length := by
        rw [cs.bytes_nextChar hok, List.length_tail]
        exact Nat.sub_le _ _
      dsimp only
      split <;> exact hnext
  rw [hbytes, List.length_tail] at htail
  omega

/-- A new lexer stands before all bytes of its source. Nothing was read, so the first character has
no other in front of it. -/
theorem ready_new {s : σ} (hs : cs.Ok s) : Ready cs (cs.bytes s) (cs.bytes s) { source := s } := by
  refine ⟨hs, [], rfl, ?_⟩
  have hfst := cs.nextChar_fst hs
  have hbytes := cs.bytes_nextChar hs
  have hok := cs.ok_nextChar hs
  cases hb : cs.bytes s with
  | nil =>
    rw [hb] at hfst hbytes
    simp only [getNextChar, hfst, advance]
    exact ⟨hok, rfl, hbytes, rfl, rfl, by simp, fun _ => ⟨rfl, rfl, rfl⟩⟩
  | cons c r =>
    rw [hb] at hfst hbytes
    simp only [getNextChar, hfst, advance]
    exact ⟨hok, rfl, hbytes, rfl, rfl, by simp, fun _ => ⟨rfl, rfl, rfl⟩⟩

/-- A new lexer stands before all bytes in memory. -/
theorem ready_ofBytes (r : Bytes) : Ready CharSource.ofBytes r r { source := r } :=
  ready_new trivial

/-! ## The token loops -/

/-- The outcome of a token function is the one scanned. -/
def Agrees (cs : CharSource σ) (src : Bytes) (out : Token × Lexer σ) (sc : Scan) : Prop :=
  out.1 = sc.token ∧ out.2.tokenBuffer = sc.text ∧ Ready cs src sc.rest out.2

/-- The loop of `consume_until_matching_quote` scans a quoted string. By induction on the bytes that
are left; the fuel is above their number. -/
theorem consumeQuoteLoop_agrees (q : UInt8) (r : Bytes) : ∀ (prev : UInt8) {pre : Bytes}
    {fuel : Nat} {curr : Option UInt8} {self : Lexer σ}, At cs pre r curr self →
    r.length < fuel → Agrees cs (pre ++ r) (consumeQuoteLoop cs q fuel prev curr self)
      (Scan.quote q prev self.tokenBuffer r) := by
  induction r with
  | nil =>
    rintro prev pre (_ | fuel) curr self h hf
    · cases hf
    · rw [consumeQuoteLoop, if_pos (by rw [h.eos_eq]; rfl)]
      exact ⟨rfl, rfl, h.ready_nil⟩
  | cons c r ih =>
    rintro prev pre (_ | fuel) curr self h hf
    · cases hf
    have hcurr : curr = some c := h.curr_eq
    have hf : r.length < fuel := by simpa using hf
    subst hcurr
    rw [consumeQuoteLoop, if_neg (by rw [h.eos_eq]; simp), Scan.quote]
    simp only [Option.some.injEq]
    split
    · have := ih prev h.next hf
      rwa [tokenBuffer_getNextChar, List.append_assoc] at this
    · split
      · exact ⟨rfl, rfl, h.ready_next⟩
      · split
        · exact ⟨rfl, rfl, (h.append _).ready_next⟩
        · have := ih c (h.append (some c)).next hf
          rwa [tokenBuffer_getNextChar, List.append_assoc] at this

/-- The buffer after the byte just read, unless it is a carriage return. -/
theorem At.keep {pre r : Bytes} {c : UInt8} {self : Lexer σ} (h : At cs pre r (some c) self) :
    At cs pre r (some c) (if some c = some 0x0D then self else self.tokenBufferAppend (some c)) ∧
      (if some c = some 0x0D then self else self.tokenBufferAppend (some c)).tokenBuffer =
        Scan.keep self.tokenBuffer c := by
  simp only [Option.some.injEq, Scan.keep]
  split
  · exact ⟨h, rfl⟩
  · exact ⟨h.append _, rfl⟩

/-- The loop of `consume_until_end_of_comment` scans a comment, by the same induction. Carriage
returns are not kept, so a turn may leave the text alone. -/
theorem consumeCommentLoop_agrees (r : Bytes) : ∀ (isLong : Bool) (depth : Int)
    {pre : Bytes} {fuel : Nat} {curr : Option UInt8} {self : Lexer σ}, At cs pre r curr self →
    r.length < fuel → Agrees cs (pre ++ r) (consumeCommentLoop cs fuel curr isLong depth self)
      (Scan.comment isLong depth self.tokenBuffer r) := by
  induction r with
  | nil =>
    rintro isLong depth pre (_ | fuel) curr self h hf
    · cases hf
    · rw [consumeCommentLoop, if_pos (by rw [h.eos_eq]; rfl)]
      exact ⟨rfl, rfl, h.ready_nil⟩
  | cons c r ih =>
    rintro isLong depth pre (_ | fuel) curr self h hf
    · cases hf
    have hcurr : curr = some c := h.curr_eq
    have hf : r.length < fuel := by simpa using hf
    subst hcurr
    rw [consumeCommentLoop, if_neg (by rw [h.eos_eq]; simp), Scan.comment]
    obtain ⟨hat, hbuf⟩ := h.keep
    dsimp only
    generalize (if some c = some 0x0D then self else self.tokenBufferAppend (some c)) = self' at *
    rw [hbuf]
    generalize (if isLong then (true, depth) else
      inLongBracket (Scan.keep self.tokenBuffer c) (ascii "--[") depth) = start
    simp only [Option.some.injEq]
    split
    · exact ⟨rfl, hbuf, hat.ready_next⟩
    · split
      · exact ⟨rfl, hbuf, hat.ready_next⟩
      · have := ih start.1 start.2 hat.next hf
        rwa [tokenBuffer_getNextChar, hbuf, List.append_assoc] at this

/-- The loop of `parse_long_string` scans a long string, by the same induction on the bytes left. -/
theorem longStringLoop_agrees (r : Bytes) : ∀ (pastOpen : Bool) (depth : Int)
    {pre : Bytes} {fuel : Nat} {curr : Option UInt8} {self : Lexer σ}, At cs pre r curr self →
    r.length < fuel → Agrees cs (pre ++ r) (longStringLoop cs fuel curr pastOpen depth self)
      (Scan.longString pastOpen depth self.tokenBuffer r) := by
  induction r with
  | nil =>
    rintro pastOpen depth pre (_ | fuel) curr self h hf
    · cases hf
    · rw [longStringLoop, if_pos (by rw [h.eos_eq]; rfl)]
      exact ⟨rfl, rfl, h.ready_nil⟩
  | cons c r ih =>
    rintro pastOpen depth pre (_ | fuel) curr self h hf
    · cases hf
    have hcurr : curr = some c := h.curr_eq
    have hf : r.length < fuel := by simpa using hf
    subst hcurr
    rw [longStringLoop, if_neg (by rw [h.eos_eq]; simp), Scan.longString]
    obtain ⟨hat, hbuf⟩ := h.keep
    dsimp only
    generalize (if some c = some 0x0D then self else self.tokenBufferAppend (some c)) = self' at *
    rw [hbuf]
    generalize (if pastOpen then (true, depth) else
      inLongBracket (Scan.keep self.tokenBuffer c) (ascii "[") depth) = past
    simp only [ne_eq, Option.some.injEq]
    split
    · exact ⟨rfl, hbuf, hat.ready_next⟩
    · split
      · exact ⟨rfl, hbuf, hat.ready_next⟩
      · have := ih past.1 past.2 hat.next hf
        rwa [tokenBuffer_getNextChar, hbuf, List.append_assoc] at this

/-- The loop appends the longest run of the class and leaves the byte after it, which it puts back.
-/
theorem appendWhile_ready (p : UInt8 → Bool) (r : Bytes) : ∀ {pre : Bytes} {fuel : Nat}
    {curr : Option UInt8} {self : Lexer σ}, At cs pre r curr self → r.length < fuel →
    (appendWhile cs p fuel curr self).tokenBuffer = self.tokenBuffer ++ r.takeWhile p ∧
      Ready cs (pre ++ r) (r.dropWhile p) (appendWhile cs p fuel curr self) := by
  induction r with
  | nil =>
    rintro pre (_ | fuel) curr self h hf
    · cases hf
    have hcurr : curr = none := h.curr_eq
    subst hcurr
    rw [appendWhile, if_neg (by simp)]
    exact ⟨by simp, h.ready_pushback⟩
  | cons c r ih =>
    rintro pre (_ | fuel) curr self h hf
    · cases hf
    have hcurr : curr = some c := h.curr_eq
    have hf : r.length < fuel := by simpa using hf
    subst hcurr
    rw [appendWhile]
    by_cases hp : p c
    · rw [if_pos (by simpa using hp)]
      obtain ⟨hbuf, hready⟩ := ih (h.append (some c)).next hf
      rw [tokenBuffer_getNextChar, tokenBuffer_append_some] at hbuf
      rw [List.append_assoc] at hready
      simp only [List.takeWhile_cons, List.dropWhile_cons, hp, if_true]
      exact ⟨by simpa using hbuf, hready⟩
    · rw [if_neg (by simpa using hp)]
      simp only [List.takeWhile_cons, List.dropWhile_cons, hp]
      exact ⟨by simp, h.ready_pushback⟩

/-- What is left after a character read is within the bound on the turns of a loop. -/
theorem At.lt_limit {pre r : Bytes} {curr : Option UInt8} {self : Lexer σ}
    (h : At cs pre r curr self) : r.length < self.limit cs := by
  rw [limit, h.bytes_eq]
  cases r <;> simp

/-- `parse_long_string`, called after `[[` or `[=`, reads the long string that is scanned from
there. -/
theorem parseLongString_agrees {pre r : Bytes} {d : UInt8} {self : Lexer σ}
    (h : At cs pre (d :: r) (some d) self) (hd : d = 0x5B ∨ d = 0x3D)
    (hbuf : self.tokenBuffer = [0x5B, d]) :
    Agrees cs (pre ++ d :: r) (parseLongString cs self)
      (Scan.longString (d = 0x5B) 0 [0x5B, d] r) := by
  have hopen : tokenBufferStartsWith [0x5B, d] (ascii "[[") = decide (d = 0x5B) := by
    rcases hd with rfl | rfl <;> rfl
  have hclose : tokenBufferEndsWith [0x5B, d] (ascii "]]") = false := by
    rcases hd with rfl | rfl <;> rfl
  have hloop := longStringLoop_agrees r (d = 0x5B) 0 h.next (Nat.lt_of_succ_lt h.lt_limit)
  rw [tokenBuffer_getNextChar, hbuf, List.append_assoc, List.singleton_append] at hloop
  simpa only [parseLongString, hbuf, hopen, hclose, Bool.false_eq_true, if_false] using hloop

/-- `parse_number` and the name case, called after the first bytes of the token. -/
theorem appendWhile_agrees {pre r : Bytes} {c : UInt8} {self : Lexer σ} (p : UInt8 → Bool)
    (f : Bytes → Token) (h : At cs pre (c :: r) (some c) self) :
    let out := appendWhile cs p (self.limit cs) (self.getNextChar cs).1 (self.getNextChar cs).2
    Agrees cs (pre ++ c :: r) (f out.tokenBuffer, out) (Scan.run p f self.tokenBuffer r) := by
  obtain ⟨hbuf, hready⟩ := appendWhile_ready p r h.next (Nat.lt_of_succ_lt h.lt_limit)
  rw [tokenBuffer_getNextChar] at hbuf
  rw [List.append_assoc] at hready
  exact ⟨by simp only [Scan.run, hbuf], hbuf, hready⟩

/-- `consume_until_end_of_comment`, called after `--`. -/
theorem consumeUntilEndOfComment_agrees {pre r : Bytes} {c : UInt8} {self : Lexer σ}
    (h : At cs pre (c :: r) (some c) self) :
    Agrees cs (pre ++ c :: r) (consumeUntilEndOfComment cs self)
      (Scan.comment false 0 self.tokenBuffer r) := by
  have hloop := consumeCommentLoop_agrees r false 0 h.next (Nat.lt_of_succ_lt h.lt_limit)
  rwa [tokenBuffer_getNextChar, List.append_assoc] at hloop

/-- `consume_until_matching_quote` starts its loop with the quote for the byte before. -/
theorem consumeUntilMatchingQuote_agrees {pre r : Bytes} {c : UInt8} {self : Lexer σ} (q : UInt8)
    (h : At cs pre (c :: r) (some c) self) :
    Agrees cs (pre ++ c :: r) (consumeUntilMatchingQuote cs q self)
      (Scan.quote q q self.tokenBuffer r) := by
  have hloop := consumeQuoteLoop_agrees q r q h.next (Nat.lt_of_succ_lt h.lt_limit)
  rwa [tokenBuffer_getNextChar, List.append_assoc] at hloop

/-- The `switch` on the first byte, which stands in the token buffer, reads the token that the scan
has, case by case. The cases that loop are the lemmas of these loops, with the token buffer as the
text they start with. -/
theorem readToken_agrees {pre r : Bytes} {c : UInt8} {self : Lexer σ}
    (h : At cs pre (c :: r) (some c) self) (hbuf : self.tokenBuffer = [c]) :
    Agrees cs (pre ++ c :: r) (readToken cs c self) (Scan.lead c r) := by
  have hnext := h.next
  have hcurr : (self.getNextChar cs).1 = r.head? := hnext.curr_eq
  have hnbuf : (self.getNextChar cs).2.tokenBuffer = [c] := by rw [tokenBuffer_getNextChar, hbuf]
  have hback := hnext.ready_pushback
  rw [List.append_assoc] at hback
  unfold readToken Scan.lead
  split
  next hc =>
    subst hc
    dsimp only
    cases r with
    | nil =>
      rw [hcurr]
      exact ⟨rfl, hnbuf, hback⟩
    | cons d r =>
      rw [hcurr] at hnext ⊢
      simp only [List.head?_cons, Option.some.injEq]
      split
      next hd =>
        have := parseLongString_agrees (hnext.append (some d)) hd
          (by rw [tokenBuffer_append_some, hnbuf]; rfl)
        rwa [List.append_assoc] at this
      · exact ⟨rfl, hnbuf, hback⟩
  · cases hp : punctuation c with
    | some t => exact ⟨rfl, hbuf, h.ready_next⟩
    | none =>
      dsimp only
      split
      · rw [← hbuf]
        exact appendWhile_agrees isNumberPart numberToken h
      split
      · cases r with
        | nil =>
          rw [hcurr]
          exact ⟨rfl, hnbuf, hback⟩
        | cons d r =>
          rw [hcurr] at hnext ⊢
          simp only [List.head?_cons, Option.some.injEq, Option.any_some]
          have happ := hnext.append (some d)
          have habuf :
              ((self.getNextChar cs).2.tokenBufferAppend (some d)).tokenBuffer = [c, d] := by
            rw [tokenBuffer_append_some, hnbuf]; rfl
          split
          · have := consumeUntilEndOfComment_agrees happ
            rwa [habuf, List.append_assoc] at this
          split
          · have := appendWhile_agrees isNumberPart numberToken happ
            rwa [habuf, List.append_assoc] at this
          · exact ⟨rfl, hnbuf, hback⟩
      split
      · rw [← hbuf]
        exact consumeUntilMatchingQuote_agrees c h
      split
      · rw [← hbuf]
        exact appendWhile_agrees isNamePart nameToken h
      · exact ⟨rfl, hbuf, h.ready_next⟩

/-! ## The next token -/

/-- The loop over whitespace stops at the first byte that is none, with the token buffer as it was.
-/
theorem skipSpaces_at (r : Bytes) : ∀ {pre : Bytes} {fuel : Nat} {curr : Option UInt8}
    {self : Lexer σ}, At cs pre r curr self → r.length < fuel →
    (skipSpaces cs fuel curr self).2.tokenBuffer = self.tokenBuffer ∧
      At cs (pre ++ r.takeWhile isSpace) (r.dropWhile isSpace) (skipSpaces cs fuel curr self).1
        (skipSpaces cs fuel curr self).2 := by
  induction r with
  | nil =>
    rintro pre (_ | fuel) curr self h hf
    · cases hf
    have hcurr : curr = none := h.curr_eq
    subst hcurr
    rw [skipSpaces, if_neg (by simp)]
    exact ⟨rfl, by simpa using h⟩
  | cons c r ih =>
    rintro pre (_ | fuel) curr self h hf
    · cases hf
    have hcurr : curr = some c := h.curr_eq
    have hf : r.length < fuel := by simpa using hf
    subst hcurr
    rw [skipSpaces]
    by_cases hs : isSpace c
    · rw [if_pos (by simpa using hs)]
      obtain ⟨hbuf, hat⟩ := ih h.next hf
      rw [tokenBuffer_getNextChar] at hbuf
      rw [List.append_assoc] at hat
      simp only [List.takeWhile_cons, List.dropWhile_cons, hs, if_true]
      exact ⟨hbuf, hat⟩
    · rw [if_neg (by simpa using hs)]
      refine ⟨rfl, ?_⟩
      simpa [List.takeWhile_cons, List.dropWhile_cons, hs] using h

/-- **The lexer reads what `scan` reads.** The position is that of the first byte after the
whitespace. The bytes are at their end, or whitespace up to there, or a token starts behind the
whitespace; it is read by `readToken_agrees`. -/
theorem nextToken_agrees {src r : Bytes} {self : Lexer σ} (h : Ready cs src r self) :
    Agrees cs src ((nextToken cs self).1.1, (nextToken cs self).2) (scan r) ∧
      (src.length < 2 ^ 31 → ∃ pre, src = pre ++ r.dropWhile isSpace ∧
        (nextToken cs self).1.2 = (lineAfter pre, columnAfter pre)) := by
  obtain ⟨-, pre, rfl, hat⟩ := h
  have heos := hat.eos_eq
  cases r with
  | nil =>
    rw [nextToken, if_pos (.inr heos)]
    refine ⟨⟨rfl, rfl, hat.clear.ready_nil⟩, fun hlen => ⟨pre, rfl, ?_⟩⟩
    obtain ⟨-, hline, hcol⟩ := hat.pos (by simpa using hlen)
    exact Prod.ext hline hcol
  | cons c r =>
    have hne : ¬ (self.getNextChar cs).2.eos = true := by rw [heos]; simp
    rw [if_neg hne] at hat
    have hcurr : (self.getNextChar cs).1 = some c := hat.curr_eq
    have hstart : ¬ ((self.getNextChar cs).1 = none ∨
        (self.getNextChar cs).2.tokenBufferClear.eos = true) := by
      rw [hcurr]; exact fun h => h.elim nofun hne
    obtain ⟨hbuf, hlead⟩ := skipSpaces_at (c :: r) hat.clear hat.clear.lt_limit
    have hsrc : pre ++ c :: r =
        pre ++ (c :: r).takeWhile isSpace ++ (c :: r).dropWhile isSpace := by
      rw [List.append_assoc, List.takeWhile_append_dropWhile]
    have hpos := fun hlen : (pre ++ c :: r).length < 2 ^ 31 =>
      hlead.pos (by rwa [← List.length_append, ← hsrc])
    rw [nextToken, if_neg hstart]
    dsimp only at hbuf hlead hpos ⊢
    generalize skipSpaces cs _ _ _ = lead at hbuf hlead hpos ⊢
    generalize pre ++ (c :: r).takeWhile isSpace = pre' at hlead hsrc hpos
    rw [hsrc]
    have hl : lead.1 = ((c :: r).dropWhile isSpace).head? := hlead.curr_eq
    rw [hl] at hlead ⊢
    unfold scan
    generalize (c :: r).dropWhile isSpace = r' at hlead hsrc hl ⊢
    cases r' with
    | nil =>
      refine ⟨⟨rfl, hbuf, (hlead.append none).ready_nil⟩, fun hlen => ⟨pre', rfl, ?_⟩⟩
      obtain ⟨-, hline, hcol⟩ := hpos (by rwa [hsrc])
      exact Prod.ext hline hcol
    | cons d r' =>
      refine ⟨readToken_agrees (hlead.append (some d)) ?_, fun hlen => ⟨pre', rfl, ?_⟩⟩
      · rw [List.head?_cons, tokenBuffer_append_some, hbuf]
        rfl
      · obtain ⟨-, hline, hcol⟩ := hpos (by rwa [hsrc])
        exact Prod.ext hline hcol

end Lexer

end Eltn
