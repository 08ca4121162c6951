import Eltn.Lexer.Room
import Eltn.Lexer.Tokens

/-!
# Tokens that are settled

A token is settled when it is the same whatever bytes follow those of the input. The lexer finds
out: a call of `ELTN_Lexer_next_token` leaves `eos` alone exactly if its token is settled
(`nextToken_settled`). Every loop of the lexer says so of itself, by induction on the bytes it
reads. So up to the call that sets `eos` the tokens are those of every longer input, and that call
gives another token on some longer input (`eos_iff`).
-/

namespace Eltn

namespace Scan

/-- The token, with more bytes behind it. -/
def followedBy (sc : Scan) (more : Bytes) : Scan := { sc with rest := sc.rest ++ more }

/-- What `f` reads off the front of the bytes is the same whatever follows them. -/
def Settled (f : Bytes → Scan) (r : Bytes) : Prop := ∀ more, f (r ++ more) = (f r).followedBy more

/-- With some bytes behind them, `f` reads another token or another text. -/
def Unsettled (f : Bytes → Scan) (r : Bytes) : Prop :=
  ∃ more, ((f (r ++ more)).token, (f (r ++ more)).text) ≠ ((f r).token, (f r).text)

/-- The flag `eos` tells whether what `f` reads is settled. -/
def Tells (eos : Bool) (f : Bytes → Scan) (r : Bytes) : Prop :=
  if eos then Unsettled f r else Settled f r

section
variable {f g : Bytes → Scan} {eos : Bool} {c : UInt8} {r text : Bytes}

/-- What is settled cannot change. -/
theorem Settled.not_unsettled (h : Settled f r) : ¬ Unsettled f r := by
  rintro ⟨more, hne⟩
  rw [h more] at hne
  exact hne rfl

/-- The flag is clear exactly if what is read is settled. The other direction of `Tells` is what
makes this an equivalence: a flag that is set comes with bytes that change the token. -/
theorem Tells.eq_false_iff (h : Tells eos f r) : eos = false ↔ Settled f r := by
  cases eos with
  | false => exact iff_of_true rfl h
  | true => exact iff_of_false (by simp) fun hsettled => hsettled.not_unsettled h

/-- The first byte is read, and `g` goes on. -/
theorem tells_cons (h : ∀ s, f (c :: s) = g s) : Tells eos f (c :: r) ↔ Tells eos g r := by
  have hiff : (∀ more, f (c :: r ++ more) = g (r ++ more)) ∧ f (c :: r) = g r :=
    ⟨fun more => h (r ++ more), h r⟩
  cases eos with
  | false => exact forall_congr' fun more => by rw [hiff.1, hiff.2]
  | true => exact exists_congr fun more => by rw [hiff.1, hiff.2]

/-- The first byte ends the token. -/
theorem tells_last (t : Token) (text : Bytes) (h : ∀ s, f (c :: s) = ⟨t, text, s⟩) :
    Tells false f (c :: r) := by
  intro more
  rw [List.cons_append, h, h]
  rfl

/-- The token ends before the first byte. -/
theorem tells_before (t : Token) (text : Bytes) (h : ∀ s, f (c :: s) = ⟨t, text, c :: s⟩) :
    Tells false f (c :: r) := by
  intro more
  rw [List.cons_append, h, h]
  rfl

/-- At the end of the bytes one more makes the text longer. -/
theorem tells_nil (c : UInt8) (h : (f [c]).text ≠ (f []).text) : Tells true f [] :=
  ⟨[c], fun heq => h (congrArg Prod.snd heq)⟩

/-- A run is settled once a byte that is not of its class ends it, and before that its token may
still change. -/
theorem tells_run {p : UInt8 → Bool} (tok : Bytes → Token) (hc : p c = true) :
    Tells (r.dropWhile p).isEmpty (run p tok text) r := by
  induction r generalizing text with
  | nil =>
    refine tells_nil c ?_
    simp [run, hc]
  | cons d r ih =>
    cases hd : p d with
    | true =>
      rw [List.dropWhile_cons_of_pos hd]
      refine (tells_cons (g := run p tok (text ++ [d])) fun s => ?_).mpr ih
      simp [run, hd]
    | false =>
      rw [List.dropWhile_cons_of_neg (by simp [hd])]
      refine tells_before (tok text) text fun s => ?_
      simp [run, hd]

/-- One byte of a comment is kept, wherever it ends. -/
theorem comment_single (isLong : Bool) (depth : Int) (text : Bytes) (c : UInt8) :
    (comment isLong depth text [c]).text = keep text c := by
  rw [comment]
  generalize (if isLong then (true, depth) else
    Lexer.inLongBracket (keep text c) (ascii "--[") depth) = start
  split
  · rfl
  split <;> rfl

/-- One byte of a long string is kept, wherever it ends. -/
theorem longString_single (pastOpen : Bool) (depth : Int) (text : Bytes) (c : UInt8) :
    (longString pastOpen depth text [c]).text = keep text c := by
  rw [longString]
  generalize (if pastOpen then (true, depth) else
    Lexer.inLongBracket (keep text c) (ascii "[") depth) = past
  split
  · rfl
  split <;> rfl

end

end Scan

namespace Lexer

open Scan

variable {σ : Type} {cs : CharSource σ}

/-- To append a character leaves the flag alone. -/
@[simp] theorem eos_append (self : Lexer σ) (cp : Option UInt8) :
    (self.tokenBufferAppend cp).eos = self.eos := by cases cp <;> rfl

section
variable {pre : Bytes} {curr : Option UInt8}

/-! ## Loops -/

/-- The loop of quoted strings tells whether its string is settled: it ends at its quote, at a
newline that is not allowed, or at the end of the input, where one more byte makes the text longer.
-/
theorem consumeQuoteLoop_settled (q : UInt8) (r : Bytes) : ∀ (prev : UInt8) {pre : Bytes}
    {fuel : Nat} {curr : Option UInt8} {self : Lexer σ}, At cs pre r curr self →
    r.length < fuel → Tells (consumeQuoteLoop cs q fuel prev curr self).2.eos
      (Scan.quote q prev self.tokenBuffer) r := by
  induction r with
  | nil =>
    rintro prev pre (_ | fuel) curr self h hf
    · cases hf
    have heos : self.eos = true := h.eos_eq
    rw [consumeQuoteLoop, if_pos heos]
    dsimp only
    rw [heos]
    refine tells_nil 0x61 ?_
    rw [Scan.quote, Scan.quote, if_neg (by simp), if_neg (by simp)]
    split <;> simp [Scan.quote]
  | cons c r ih =>
    rintro prev pre (_ | fuel) curr self h hf
    · cases hf
    have hcurr : curr = some c := h.curr_eq
    have hf : r.length < fuel := by simpa using hf
    have heos : self.eos = false := h.eos_eq
    subst hcurr
    rw [consumeQuoteLoop, if_neg (by rw [heos]; simp)]
    simp only [Option.some.injEq]
    split
    next hcr =>
      refine (tells_cons fun s => ?_).mpr (ih prev h.next hf)
      rw [Scan.quote, if_pos hcr, tokenBuffer_getNextChar]
    next hcr =>
    split
    next hlf =>
      dsimp only
      rw [heos]
      refine tells_last .invalid self.tokenBuffer fun s => ?_
      rw [Scan.quote, if_neg hcr, if_pos hlf]
    next hlf =>
    split
    next hquote =>
      dsimp only
      rw [eos_append, heos]
      refine tells_last .string (self.tokenBuffer ++ [c]) fun s => ?_
      rw [Scan.quote, if_neg hcr, if_neg hlf, if_pos hquote]
    next hquote =>
      refine (tells_cons fun s => ?_).mpr (ih c (h.append (some c)).next hf)
      rw [Scan.quote, if_neg hcr, if_neg hlf, if_neg hquote, tokenBuffer_getNextChar,
        tokenBuffer_append_some]

/-- The loop of comments tells whether its comment is settled. At the end of the input a short
comment is complete for the lexer, but one more byte would belong to it. By induction on the bytes
left: the two ways out of the loop have not seen the end, and where it goes on the bytes behind
decide. -/
theorem consumeCommentLoop_settled (r : Bytes) : ∀ (isLong : Bool) (depth : Int)
    {pre : Bytes} {fuel : Nat} {curr : Option UInt8} {self : Lexer σ}, At cs pre r curr self →
    r.length < fuel → Tells (consumeCommentLoop cs fuel curr isLong depth self).2.eos
      (Scan.comment isLong depth self.tokenBuffer) r := by
  induction r with
  | nil =>
    rintro isLong depth pre (_ | fuel) curr self h hf
    · cases hf
    have heos : self.eos = true := h.eos_eq
    rw [consumeCommentLoop, if_pos heos]
    dsimp only
    rw [heos]
    refine tells_nil 0x61 ?_
    rw [comment_single]
    simp [Scan.keep, Scan.comment]
  | cons c r ih =>
    rintro isLong depth pre (_ | fuel) curr self h hf
    · cases hf
    have hcurr : curr = some c := h.curr_eq
    have hf : r.length < fuel := by simpa using hf
    have heos : self.eos = false := h.eos_eq
    subst hcurr
    rw [consumeCommentLoop, if_neg (by rw [heos]; simp)]
    obtain ⟨hat, hbuf⟩ := h.keep
    have heos' : (if some c = some 0x0D then self else self.tokenBufferAppend (some c)).eos =
        false := hat.eos_eq
    dsimp only
    generalize (if some c = some 0x0D then self else self.tokenBufferAppend (some c)) = self' at *
    rw [hbuf]
    have hscan : ∀ s, Scan.comment isLong depth self.tokenBuffer (c :: s) = _ := fun s => by
      rw [Scan.comment]
    generalize (if isLong then (true, depth) else
      inLongBracket (Scan.keep self.tokenBuffer c) (ascii "--[") depth) = start at hscan ⊢
    simp only [Option.some.injEq]
    split
    next hlf =>
      dsimp only
      rw [heos']
      exact tells_last .comment (Scan.keep self.tokenBuffer c) fun s => by rw [hscan, if_pos hlf]
    next hlf =>
    split
    next hend =>
      dsimp only
      rw [heos']
      exact tells_last .longComment (Scan.keep self.tokenBuffer c) fun s => by
        rw [hscan, if_neg hlf, if_pos hend]
    next hend =>
      refine (tells_cons fun s => ?_).mpr (ih start.1 start.2 hat.next hf)
      rw [hscan, if_neg hlf, if_neg hend, tokenBuffer_getNextChar, hbuf]

/-- The loop of long strings tells whether its string is settled: the end of the input is seen
exactly where the closing bracket was not. By induction on the bytes left. -/
theorem longStringLoop_settled (r : Bytes) : ∀ (pastOpen : Bool) (depth : Int)
    {pre : Bytes} {fuel : Nat} {curr : Option UInt8} {self : Lexer σ}, At cs pre r curr self →
    r.length < fuel → Tells (longStringLoop cs fuel curr pastOpen depth self).2.eos
      (Scan.longString pastOpen depth self.tokenBuffer) r := by
  induction r with
  | nil =>
    rintro pastOpen depth pre (_ | fuel) curr self h hf
    · cases hf
    have heos : self.eos = true := h.eos_eq
    rw [longStringLoop, if_pos heos]
    dsimp only
    rw [heos]
    refine tells_nil 0x61 ?_
    rw [longString_single]
    simp [Scan.keep, Scan.longString]
  | cons c r ih =>
    rintro pastOpen depth pre (_ | fuel) curr self h hf
    · cases hf
    have hcurr : curr = some c := h.curr_eq
    have hf : r.length < fuel := by simpa using hf
    have heos : self.eos = false := h.eos_eq
    subst hcurr
    rw [longStringLoop, if_neg (by rw [heos]; simp)]
    obtain ⟨hat, hbuf⟩ := h.keep
    have heos' : (if some c = some 0x0D then self else self.tokenBufferAppend (some c)).eos =
        false := hat.eos_eq
    dsimp only
    generalize (if some c = some 0x0D then self else self.tokenBufferAppend (some c)) = self' at *
    rw [hbuf]
    have hscan : ∀ s, Scan.longString pastOpen depth self.tokenBuffer (c :: s) = _ := fun s => by
      rw [Scan.longString]
    generalize (if pastOpen then (true, depth) else
      inLongBracket (Scan.keep self.tokenBuffer c) (ascii "[") depth) = past at hscan ⊢
    simp only [ne_eq, Option.some.injEq]
    split
    next hno =>
      dsimp only
      rw [heos']
      exact tells_last .invalid (Scan.keep self.tokenBuffer c) fun s => by rw [hscan, if_pos hno]
    next hno =>
    split
    next hend =>
      dsimp only
      rw [heos']
      exact tells_last .longString (Scan.keep self.tokenBuffer c) fun s => by
        rw [hscan, if_neg hno, if_pos hend]
    next hend =>
      refine (tells_cons fun s => ?_).mpr (ih past.1 past.2 hat.next hf)
      rw [hscan, if_neg hno, if_neg hend, tokenBuffer_getNextChar, hbuf]

/-- The loop of numbers and names puts the byte back that ends the run, and sees the end of the
input where there is no such byte. -/
theorem appendWhile_eos (p : UInt8 → Bool) (r : Bytes) : ∀ {pre : Bytes} {fuel : Nat}
    {curr : Option UInt8} {self : Lexer σ}, At cs pre r curr self → r.length < fuel →
    (appendWhile cs p fuel curr self).eos = (r.dropWhile p).isEmpty := by
  induction r with
  | nil =>
    rintro pre (_ | fuel) curr self h hf
    · cases hf
    have hcurr : curr = none := h.curr_eq
    subst hcurr
    rw [appendWhile, if_neg (by simp)]
    exact h.eos_eq
  | cons c r ih =>
    rintro pre (_ | fuel) curr self h hf
    · cases hf
    have hcurr : curr = some c := h.curr_eq
    have hf : r.length < fuel := by simpa using hf
    subst hcurr
    rw [appendWhile]
    cases hp : p c with
    | true =>
      rw [if_pos (by simpa using hp), List.dropWhile_cons_of_pos hp]
      exact ih (h.append (some c)).next hf
    | false =>
      rw [if_neg (by simp [hp]), List.dropWhile_cons_of_neg (by simp [hp])]
      exact h.eos_eq

/-! ## The token -/

/-- A digit goes on with a number: the byte that shows a run to be unsettled. -/
theorem isNumberPart_zero : isNumberPart 0x30 = true := by decide

/-- A letter goes on with a name. -/
theorem isNamePart_a : isNamePart 0x61 = true := by decide

/-- The callers of the loops, on the first bytes of the token. -/
theorem consumeUntilMatchingQuote_settled {pre r : Bytes} {c : UInt8} {self : Lexer σ} (q : UInt8)
    (h : At cs pre (c :: r) (some c) self) :
    Tells (consumeUntilMatchingQuote cs q self).2.eos (Scan.quote q q self.tokenBuffer) r := by
  have hloop := consumeQuoteLoop_settled q r q h.next (Nat.lt_of_succ_lt h.lt_limit)
  rwa [tokenBuffer_getNextChar] at hloop

/-- The comment behind its two dashes. -/
theorem consumeUntilEndOfComment_settled {pre r : Bytes} {c : UInt8} {self : Lexer σ}
    (h : At cs pre (c :: r) (some c) self) :
    Tells (consumeUntilEndOfComment cs self).2.eos (Scan.comment false 0 self.tokenBuffer) r := by
  have hloop := consumeCommentLoop_settled r false 0 h.next (Nat.lt_of_succ_lt h.lt_limit)
  rwa [tokenBuffer_getNextChar] at hloop

/-- A run of number or name bytes behind its first byte. -/
theorem appendWhile_settled {pre r : Bytes} {c d : UInt8} {self : Lexer σ} {p : UInt8 → Bool}
    (tok : Bytes → Token) (hd : p d = true) (h : At cs pre (c :: r) (some c) self) :
    Tells (appendWhile cs p (self.limit cs) (self.getNextChar cs).1 (self.getNextChar cs).2).eos
      (Scan.run p tok self.tokenBuffer) r := by
  rw [appendWhile_eos p r h.next (Nat.lt_of_succ_lt h.lt_limit)]
  exact tells_run tok hd

/-- The long string behind its first two bytes is settled where its closing bracket was found, which
`eos` tells. -/
theorem parseLongString_settled {pre r : Bytes} {d : UInt8} {self : Lexer σ}
    (h : At cs pre (d :: r) (some d) self) (hd : d = 0x5B ∨ d = 0x3D)
    (hbuf : self.tokenBuffer = [0x5B, d]) :
    Tells (parseLongString cs self).2.eos (Scan.longString (d = 0x5B) 0 [0x5B, d]) r := by
  have hopen : tokenBufferStartsWith [0x5B, d] (ascii "[[") = decide (d = 0x5B) := by
    rcases hd with rfl | rfl <;> rfl
  have hclose : tokenBufferEndsWith [0x5B, d] (ascii "]]") = false := by
    rcases hd with rfl | rfl <;> rfl
  have hloop := longStringLoop_settled r (d = 0x5B) 0 h.next (Nat.lt_of_succ_lt h.lt_limit)
  rw [tokenBuffer_getNextChar, hbuf] at hloop
  simpa only [parseLongString, hbuf, hopen, hclose, Bool.false_eq_true, if_false] using hloop

/-- A token of one byte reads nothing behind that byte, and is settled as it stands. -/
theorem singleByte_settled {pre r : Bytes} {c : UInt8} {self : Lexer σ} (t : Token)
    (h : At cs pre (c :: r) (some c) self) (hlead : ∀ s, Scan.lead c s = ⟨t, [c], s⟩) :
    Tells self.eos (Scan.lead c) r := by
  have hself : self.eos = false := h.eos_eq
  rw [hself]
  intro more
  rw [hlead, hlead]
  rfl

/-- `[` looks at the byte behind it. A second `[` or a `=` opens a long string, and any other byte
goes back and leaves the bracket settled. At the end of the input the bracket is not: a `[` there
would make it a long string. -/
theorem readToken_square_settled {pre r : Bytes} {self : Lexer σ}
    (h : At cs pre (0x5B :: r) (some 0x5B) self) (hbuf : self.tokenBuffer = [0x5B]) :
    Tells (readToken cs 0x5B self).2.eos (Scan.lead 0x5B) r := by
  have hnext := h.next
  have hcurr : (self.getNextChar cs).1 = r.head? := hnext.curr_eq
  have hnbuf : (self.getNextChar cs).2.tokenBuffer = [0x5B] := by
    rw [tokenBuffer_getNextChar, hbuf]
  have heos : (self.getNextChar cs).2.eos = r.isEmpty := hnext.eos_eq
  rw [readToken, if_pos rfl]
  dsimp only
  cases r with
  | nil =>
    rw [hcurr]
    refine (show Tells (self.getNextChar cs).2.eos _ _ from ?_)
    rw [heos]
    exact ⟨[0x5B], by decide⟩
  | cons d r =>
    rw [hcurr] at hnext ⊢
    simp only [List.head?_cons, Option.some.injEq]
    split
    next hd =>
      refine (tells_cons fun s => ?_).mpr (parseLongString_settled (hnext.append (some d)) hd
        (by rw [tokenBuffer_append_some, hnbuf]; rfl))
      simp only [Scan.lead, if_true, if_pos hd]
    next hd =>
      dsimp only
      rw [heos]
      refine tells_before .squareOpen [0x5B] fun s => ?_
      simp only [Scan.lead, if_true, if_neg hd]

/-- `-` looks at the byte behind it. A second `-` opens a comment, a digit or a point a number, and
any other byte goes back and leaves an invalid token that is settled. At the end of the input it is
not: a digit there would make it a number. -/
theorem readToken_minus_settled {pre r : Bytes} {self : Lexer σ}
    (h : At cs pre (0x2D :: r) (some 0x2D) self) (hbuf : self.tokenBuffer = [0x2D]) :
    Tells (readToken cs 0x2D self).2.eos (Scan.lead 0x2D) r := by
  have hnext := h.next
  have hcurr : (self.getNextChar cs).1 = r.head? := hnext.curr_eq
  have hnbuf : (self.getNextChar cs).2.tokenBuffer = [0x2D] := by
    rw [tokenBuffer_getNextChar, hbuf]
  have heos : (self.getNextChar cs).2.eos = r.isEmpty := hnext.eos_eq
  have hsquare : ¬ (0x2D : UInt8) = 0x5B := by decide
  have hdigit : ¬ (isDigit 0x2D = true ∨ (0x2D : UInt8) = 0x2E) := by decide
  rw [readToken, if_neg hsquare, show punctuation 0x2D = none from rfl]
  dsimp only
  rw [if_neg hdigit, if_pos rfl]
  cases r with
  | nil =>
    rw [hcurr]
    refine (show Tells (self.getNextChar cs).2.eos _ _ from ?_)
    rw [heos]
    exact ⟨[0x30], by decide⟩
  | cons d r =>
    have hlead : ∀ s, Scan.lead 0x2D (d :: s) =
        if d = 0x2D then Scan.comment false 0 [0x2D, d] s
        else if isDigit d = true ∨ d = 0x2E then Scan.run isNumberPart numberToken [0x2D, d] s
        else ⟨.invalid, [0x2D], d :: s⟩ := fun s => rfl
    rw [hcurr] at hnext ⊢
    simp only [List.head?_cons, Option.some.injEq, Option.any_some]
    have happ := hnext.append (some d)
    have habuf : ((self.getNextChar cs).2.tokenBufferAppend (some d)).tokenBuffer = [0x2D, d] := by
      rw [tokenBuffer_append_some, hnbuf]; rfl
    split
    next hdash =>
      refine (tells_cons fun s => ?_).mpr (consumeUntilEndOfComment_settled happ)
      rw [habuf, hlead, if_pos hdash]
    next hdash =>
    split
    next hnumber =>
      refine (tells_cons fun s => ?_).mpr (appendWhile_settled numberToken isNumberPart_zero happ)
      rw [habuf, hlead, if_neg hdash, if_pos hnumber]
    next hnumber =>
      dsimp only
      rw [heos]
      refine tells_before .invalid [0x2D] fun s => ?_
      rw [hlead, if_neg hdash, if_neg hnumber]

/-- The `switch` on the first byte, which stands in the token buffer: only `[` and `-` look at the
byte behind it, the other cases are one byte or one of the loops. -/
theorem readToken_settled {pre r : Bytes} {c : UInt8} {self : Lexer σ}
    (h : At cs pre (c :: r) (some c) self) (hbuf : self.tokenBuffer = [c]) :
    Tells (readToken cs c self).2.eos (Scan.lead c) r := by
  by_cases hsquare : c = 0x5B
  · subst hsquare
    exact readToken_square_settled h hbuf
  by_cases hminus : c = 0x2D
  · subst hminus
    exact readToken_minus_settled h hbuf
  rw [readToken, if_neg hsquare]
  cases hp : punctuation c with
  | some t =>
    exact singleByte_settled t h fun s => by simp only [Scan.lead, if_neg hsquare, hp]
  | none =>
    have hlead : Scan.lead c = fun s => if isDigit c = true ∨ c = 0x2E then
        Scan.run isNumberPart numberToken [c] s
      else if c = 0x27 ∨ c = 0x22 then Scan.quote c c [c] s
      else if isNameStart c = true then Scan.run isNamePart nameToken [c] s
      else ⟨.invalid, [c], s⟩ := by
      funext s
      simp only [Scan.lead, if_neg hsquare, hp, if_neg hminus]
    dsimp only
    rw [if_neg hminus]
    split
    next hnumber =>
      rw [hlead, ← hbuf]
      simp only [if_pos hnumber]
      exact appendWhile_settled numberToken isNumberPart_zero h
    next hnumber =>
    split
    next hquote =>
      rw [hlead, ← hbuf]
      simp only [if_neg hnumber, if_pos hquote]
      exact consumeUntilMatchingQuote_settled c h
    next hquote =>
    split
    next hname =>
      rw [hlead, ← hbuf]
      simp only [if_neg hnumber, if_neg hquote, if_pos hname]
      exact appendWhile_settled nameToken isNamePart_a h
    next hname =>
      refine singleByte_settled .invalid h fun s => ?_
      rw [hlead]
      simp only [if_neg hnumber, if_neg hquote, if_neg hname]

/-- Whitespace in front of a token makes no difference. It is skipped before the token is read,
however much of it there is. -/
theorem tells_scan {eos : Bool} {c : UInt8} {r r' : Bytes} (h : r.dropWhile isSpace = c :: r') :
    Tells eos scan r ↔ Tells eos (Scan.lead c) r' := by
  have hscan : ∀ more, scan (r ++ more) = Scan.lead c (r' ++ more) := by
    intro more
    have hne : (r.dropWhile isSpace).isEmpty = false := by rw [h]; rfl
    rw [scan, List.dropWhile_append, hne, h]
    rfl
  have hscan' : scan r = Scan.lead c r' := by rw [scan, h]
  cases eos with
  | false => exact forall_congr' fun more => by rw [hscan, hscan']
  | true => exact exists_congr fun more => by rw [hscan, hscan']

/-- Behind whitespace alone anything may follow. -/
theorem unsettled_spaces {r : Bytes} (h : r.dropWhile isSpace = []) : Unsettled scan r := by
  refine ⟨[0x5D], ?_⟩
  rw [scan, List.dropWhile_append, h, scan_eq_eof h]
  decide

/-- **The lexer reads on exactly until its token is settled**, wherever it stands between two
tokens. Whitespace alone is never settled, since a token may follow; behind whitespace it is the
token that tells. -/
theorem nextToken_settled {src r : Bytes} {self : Lexer σ} (h : Ready cs src r self) :
    Tells (nextToken cs self).2.eos scan r := by
  obtain ⟨-, pre, rfl, hat⟩ := h
  have heos := hat.eos_eq
  cases r with
  | nil =>
    rw [nextToken, if_pos (.inr heos)]
    refine (show Tells (self.getNextChar cs).2.eos _ _ from ?_)
    rw [heos]
    exact unsettled_spaces rfl
  | cons c r =>
    have hne : ¬ (self.getNextChar cs).2.eos = true := by rw [heos]; simp
    rw [if_neg hne] at hat
    have hcurr : (self.getNextChar cs).1 = some c := hat.curr_eq
    have hstart : ¬ ((self.getNextChar cs).1 = none ∨
        (self.getNextChar cs).2.tokenBufferClear.eos = true) := by
      rw [hcurr]
      rintro (h | h)
      · cases h
      · exact hne h
    obtain ⟨hbuf, hlead⟩ := skipSpaces_at (c :: r) hat.clear hat.clear.lt_limit
    rw [nextToken, if_neg hstart]
    dsimp only at hbuf hlead ⊢
    generalize skipSpaces cs _ _ _ = lead at hbuf hlead ⊢
    have hl : lead.1 = ((c :: r).dropWhile isSpace).head? := hlead.curr_eq
    rw [hl] at hlead ⊢
    cases hr : (c :: r).dropWhile isSpace with
    | nil =>
      rw [hr] at hlead
      have hend : lead.2.eos = true := hlead.eos_eq
      refine (show Tells (lead.2.tokenBufferAppend none).eos _ _ from ?_)
      rw [eos_append, hend]
      exact unsettled_spaces hr
    | cons d r' =>
      rw [hr] at hlead
      refine (tells_scan hr).mpr (readToken_settled (hlead.append (some d)) ?_)
      rw [List.head?_cons, tokenBuffer_append_some, hbuf]
      rfl

end

/-! ## Runs -/

/-- At the end of the input a call reports it again, and reads nothing. -/
theorem nextToken_of_eos (cs : CharSource σ) {self : Lexer σ} (h : self.eos = true) :
    nextToken cs self =
      ((.eof, self.line, self.column), { self with pushback := false }.tokenBufferClear) := by
  have hget : (self.getNextChar cs).2 = { self with pushback := false } := by
    cases hback : self.pushback with
    | true => rw [getNextChar, if_pos hback]
    | false =>
      have hself : { self with pushback := false } = self := by
        cases self; cases hback; rfl
      rw [getNextChar, if_neg (by simp [hback]), if_pos h, hself]
  rw [nextToken, hget, if_pos (.inr h)]
  rfl

/-- The end of the input stays the end. -/
theorem eos_of_eos {self : Lexer σ} (h : self.eos = true) : (nextToken cs self).2.eos = true := by
  rw [nextToken_of_eos cs h]
  exact h

/-- The kind and the text of the next token. -/
def token (cs : CharSource σ) (self : Lexer σ) : Token × Bytes :=
  ((nextToken cs self).1.1, (nextToken cs self).2.tokenString)

section
variable {σ' : Type} {cs' : CharSource σ'} {src r more : Bytes} {l : Lexer σ} {l' : Lexer σ'}
  {s : σ} {n k : Nat}

/-- The next token is the first one scanned of what is left. -/
theorem Ready.token_eq (h : Ready cs src r l) : token cs l = ((scan r).token, (scan r).text) := by
  obtain ⟨⟨htok, htext, -⟩, -⟩ := nextToken_agrees h
  exact Prod.ext htok htext

/-- Calls are counted from the first; here the last one is taken off. -/
theorem after_succ' (l : Lexer σ) (n : Nat) :
    after cs l (n + 1) = (nextToken cs (after cs l n)).2 := by
  rw [after, Function.iterate_succ_apply', after]

/-- Before the end of the input no call has met it. -/
theorem eos_after (h : (after cs l n).eos = false) (hk : k ≤ n) : (after cs l k).eos = false := by
  induction n with
  | zero => rwa [Nat.le_zero.mp hk]
  | succ n ih =>
    have hn : (after cs l n).eos = false := by
      rw [after_succ'] at h
      cases hn : (after cs l n).eos with
      | false => rfl
      | true => exact absurd (h.symm.trans (eos_of_eos hn)) (by simp)
    rcases Nat.le_or_eq_of_le_succ hk with hk | rfl
    · exact ih hn hk
    · exact h

/-- Behind settled tokens, what is left of a longer input is what was left of the shorter one, and
the bytes that it has more. -/
theorem unread_append (h : ∀ j < k, Settled scan (unread r j)) :
    unread (r ++ more) k = unread r k ++ more := by
  induction k generalizing r with
  | zero => rfl
  | succ k ih =>
    have hfirst : scan (r ++ more) = (scan r).followedBy more := h 0 (Nat.succ_pos k) more
    rw [unread_succ, unread_succ, hfirst]
    refine ih fun j hj => ?_
    rw [← unread_succ]
    exact h (j + 1) (Nat.succ_lt_succ hj)

/-- The tokens read before the end of the input are settled. -/
theorem settled_of_after (hs : cs.Ok s) (h : (after cs { source := s } n).eos = false)
    (hk : k < n) : Settled scan (unread (cs.bytes s) k) := by
  have hready := after_ready k (ready_new hs)
  have heos := eos_after h (Nat.succ_le_of_lt hk)
  rw [after_succ'] at heos
  exact (nextToken_settled hready).eq_false_iff.mp heos

/-- **What `eos` means.** For every source and every number of calls of `ELTN_Lexer_next_token` on a
new lexer: `eos` is not set behind call number `n` exactly if each of the calls up to it gives the
same kind of token with the same text on every longer input. -/
theorem eos_iff (cs : CharSource σ) {s : σ} (hs : cs.Ok s) (n : Nat) :
    (after cs { source := s } (n + 1)).eos = false ↔
      ∀ more, ∀ k ≤ n, token .ofBytes (after .ofBytes { source := cs.bytes s ++ more } k) =
        token cs (after cs { source := s } k) := by
  have hready := fun k => after_ready k (ready_new hs)
  have hlonger := fun more k => after_ready k (ready_ofBytes (cs.bytes s ++ more))
  constructor
  · intro h more k hk
    have hsettled : ∀ j ≤ k, Settled scan (unread (cs.bytes s) j) := fun j hj =>
      settled_of_after hs h (Nat.lt_succ_of_le (hj.trans hk))
    rw [(hready k).token_eq, (hlonger more k).token_eq,
      unread_append fun j hj => hsettled j hj.le, hsettled k le_rfl more]
    rfl
  · intro h
    -- the first call that meets the end of the input has a token that some longer input changes
    have hall : ∀ k ≤ n + 1, (after cs { source := s } k).eos = false := by
      intro k
      induction k with
      | zero => exact fun _ => rfl
      | succ k ih =>
        intro hk
        have hk' : k ≤ n := Nat.le_of_succ_le_succ hk
        have hbefore := ih (Nat.le_succ_of_le hk')
        have htells := nextToken_settled (hready k)
        rw [after_succ']
        cases heos : (nextToken cs (after cs { source := s } k)).2.eos with
        | false => rfl
        | true =>
          rw [heos] at htells
          obtain ⟨more, hne⟩ := htells
          have hsame := h more k hk'
          rw [(hready k).token_eq, (hlonger more k).token_eq,
            unread_append fun j hj => settled_of_after hs hbefore hj] at hsame
          exact absurd hsame hne
    exact hall (n + 1) le_rfl

/-- The text `a =`: behind its two tokens `eos` is not set, and no longer text changes them. -/
theorem eos_iff_example :
    (after .ofBytes { source := ascii "a =" } 2).eos = false ∧
      (∀ more, ∀ k ≤ 1, token .ofBytes (after .ofBytes { source := ascii "a =" ++ more } k) =
        token .ofBytes (after .ofBytes { source := ascii "a =" } k)) :=
  ⟨by decide, (eos_iff .ofBytes (s := ascii "a =") trivial 1).mp (by decide)⟩

end

end Lexer

end Eltn
