import Eltn.Lexer.Room

/-!
# Suffix tests inside the token

`token_buffer_ends_with` compares the bytes before the end of the token with a suffix, and does not
ask whether the token is that long. `Checked` is the lexer whose suffix test has no result on a
shorter token; all other functions are those of the source. A call of the lexer agrees with its
checked form, but for a quote and a newline (`suffix_inside_iff`): `Bracket` is what the loops of
long brackets keep.
-/

namespace Eltn

namespace Lexer

variable {σ : Type} (cs : CharSource σ)

/-! ## The checked lexer -/

namespace Checked

/-- `token_buffer_ends_with`, on a token that holds as many bytes as the suffix. -/
def tokenBufferEndsWith (token str : Bytes) : Option Bool :=
  if str.length ≤ token.length then some (Lexer.tokenBufferEndsWith token str) else none

/-- The loop of `consume_until_matching_quote`, without a result where the test for `\z` looks in
front of the token. -/
def consumeQuoteLoop (quote : UInt8) :
    Nat → UInt8 → Option UInt8 → Lexer σ → Option (Token × Lexer σ)
  | 0, _, _, self => some (.invalid, self)
  | fuel + 1, prev, curr, self =>
    if self.eos then some (.invalid, self)
    else if curr = some 0x0D then
      consumeQuoteLoop quote fuel prev (self.getNextChar cs).1 (self.getNextChar cs).2
    else do
      let escaped ←
        (if curr = some 0x0A ∧ prev ≠ 0x5C then tokenBufferEndsWith self.tokenBuffer (ascii "\\z")
        else some true)
      if !escaped then some (.invalid, self)
      else
        let self := self.tokenBufferAppend curr
        if curr = some quote ∧ prev ≠ 0x5C then some (.string, self)
        else
          consumeQuoteLoop quote fuel (curr.getD prev) (self.getNextChar cs).1
            (self.getNextChar cs).2

/-- `consume_until_matching_quote`. -/
def consumeUntilMatchingQuote (quote : UInt8) (self : Lexer σ) : Option (Token × Lexer σ) :=
  consumeQuoteLoop cs quote (self.limit cs) quote (self.getNextChar cs).1 (self.getNextChar cs).2

/-- `in_long_bracket`, whose two tests at the end of the token have no result where they look in
front of it. -/
def inLongBracket (token pre : Bytes) (depth : Int) : Option (Bool × Int) :=
  if 0 ≤ depth ∧ token.length > pre.length ∧ tokenBufferStartsWith token pre then do
    if ← tokenBufferEndsWith token (ascii "[") then
      if ← tokenBufferEndsWith token (ascii "[[") then some (true, depth)
      else some (longBracketDepth (token.drop pre.length) depth)
    else some (false, depth)
  else some (false, depth)

/-- `token_buffer_ends_with_long_bracket`, with a result where both of its tests have one. -/
def endsWithLongBracket (token : Bytes) (depth : Int) : Option Bool := do
  if ← tokenBufferEndsWith token (ascii "]") then
    tokenBufferEndsWith token (0x5D :: List.replicate depth.toNat 0x3D ++ [0x5D])
  else some false

/-- The loop of `consume_until_end_of_comment`, without a result where one of its tests has none. -/
def consumeCommentLoop :
    Nat → Option UInt8 → Bool → Int → Lexer σ → Option (Token × Lexer σ)
  | 0, _, isLong, _, self => some (if isLong then .invalid else .comment, self)
  | fuel + 1, curr, isLong, depth, self =>
    if self.eos then some (if isLong then .invalid else .comment, self)
    else do
      let self := if curr = some 0x0D then self else self.tokenBufferAppend curr
      let start ←
        (if isLong then some (true, depth) else inLongBracket self.tokenBuffer (ascii "--[") depth)
      if !start.1 ∧ curr = some 0x0A then some (.comment, self)
      else
        let close ←
          (if start.1 then endsWithLongBracket self.tokenBuffer start.2 else some false)
        if close then some (.longComment, self)
        else
          consumeCommentLoop fuel (self.getNextChar cs).1 start.1 start.2 (self.getNextChar cs).2

/-- `consume_until_end_of_comment`. -/
def consumeUntilEndOfComment (self : Lexer σ) : Option (Token × Lexer σ) :=
  consumeCommentLoop cs (self.limit cs) (self.getNextChar cs).1 false 0 (self.getNextChar cs).2

/-- The loop of `parse_long_string`, without a result where one of its tests has none. -/
def longStringLoop : Nat → Option UInt8 → Bool → Int → Lexer σ → Option (Token × Lexer σ)
  | 0, _, _, _, self => some (.invalid, self)
  | fuel + 1, curr, pastOpen, depth, self =>
    if self.eos then some (.invalid, self)
    else do
      let self := if curr = some 0x0D then self else self.tokenBufferAppend curr
      let past ←
        (if pastOpen then some (true, depth) else inLongBracket self.tokenBuffer (ascii "[") depth)
      if !past.1 ∧ (curr ≠ some 0x3D ∨ past.2 < 0) then some (.invalid, self)
      else
        let close ← (if past.1 then endsWithLongBracket self.tokenBuffer past.2 else some false)
        if close then some (.longString, self)
        else longStringLoop fuel (self.getNextChar cs).1 past.1 past.2 (self.getNextChar cs).2

/-- `parse_long_string`, without a result where one of its tests has none. -/
def parseLongString (self : Lexer σ) : Option (Token × Lexer σ) := do
  let pastOpen := tokenBufferStartsWith self.tokenBuffer (ascii "[[")
  let pastClose ← tokenBufferEndsWith self.tokenBuffer (ascii "]]")
  if pastClose then some (.longString, (self.getNextChar cs).2)
  else longStringLoop cs (self.limit cs) (self.getNextChar cs).1 pastOpen 0 (self.getNextChar cs).2

/-- The `switch` of `ELTN_Lexer_next_token`, the cases without such tests being those of the lexer.
-/
def readToken (c : UInt8) (self : Lexer σ) : Option (Token × Lexer σ) :=
  if c = 0x5B then
    let next := self.getNextChar cs
    if next.1 = some 0x5B ∨ next.1 = some 0x3D then
      parseLongString cs (next.2.tokenBufferAppend next.1)
    else some (.squareOpen, { next.2 with pushback := true })
  else match punctuation c with
  | some t => some (t, self)
  | none =>
    if isDigit c ∨ c = 0x2E then some (parseNumber cs self)
    else if c = 0x2D then
      let next := self.getNextChar cs
      if next.1 = some 0x2D then consumeUntilEndOfComment cs (next.2.tokenBufferAppend next.1)
      else if next.1.any isDigit ∨ next.1 = some 0x2E then
        some (parseNumber cs (next.2.tokenBufferAppend next.1))
      else some (.invalid, { next.2 with pushback := true })
    else if c = 0x27 ∨ c = 0x22 then consumeUntilMatchingQuote cs c self
    else if isNameStart c then some (parseName cs self)
    else some (.invalid, self)

/-- `ELTN_Lexer_next_token`, with a result where all bytes that it compares are in the token buffer.
-/
def nextToken (self : Lexer σ) : Option ((Token × Nat × Nat) × Lexer σ) :=
  let first := self.getNextChar cs
  let self := first.2.tokenBufferClear
  if first.1 = none ∨ self.eos then some ((.eof, self.line, self.column), self)
  else
    let lead := skipSpaces cs (self.limit cs) first.1 self
    let self := lead.2.tokenBufferAppend lead.1
    match lead.1 with
    | none => some ((.eof, self.line, self.column), self)
    | some c =>
      (readToken cs c self).map fun out => ((out.1, self.line, self.column), out.2)

section
variable {cs} {q prev : UInt8} {token pre str : Bytes} {isLong : Bool} {depth : Int}
  {self : Lexer σ}

/-- On a token that is no shorter than the suffix the checked comparison is that of the lexer. -/
theorem tokenBufferEndsWith_eq (h : str.length ≤ token.length) :
    tokenBufferEndsWith token str = some (Lexer.tokenBufferEndsWith token str) := if_pos h

/-- Reading and appending keep the length that a token has at least. -/
theorem length_next {n : Nat} (h : n ≤ self.tokenBuffer.length) :
    n ≤ (self.getNextChar cs).2.tokenBuffer.length := by
  rwa [tokenBuffer_getNextChar]

/-- To append a character makes a token no shorter. -/
theorem length_append {n : Nat} (h : n ≤ self.tokenBuffer.length) (cp : Option UInt8) :
    n ≤ (self.tokenBufferAppend cp).tokenBuffer.length := by
  cases cp with
  | none => exact h
  | some c =>
    rw [tokenBuffer_append_some, List.length_append]
    exact Nat.le_add_right_of_le h

/-! ## Quoted strings -/

/-- From two bytes on the token holds `\z`, so that the test for it stays inside. By induction on
the turns, during which the token only grows. -/
theorem consumeQuoteLoop_eq (fuel : Nat) (prev : UInt8) (curr : Option UInt8)
    (h : 2 ≤ self.tokenBuffer.length) :
    consumeQuoteLoop cs q fuel prev curr self =
      some (Lexer.consumeQuoteLoop cs q fuel prev curr self) := by
  induction fuel generalizing prev curr self with
  | zero => rfl
  | succ fuel ih =>
    have hescaped : (if curr = some 0x0A ∧ prev ≠ 0x5C then
          tokenBufferEndsWith self.tokenBuffer (ascii "\\z") else some true) =
        some (!decide (curr = some 0x0A ∧ prev ≠ 0x5C ∧
          !Lexer.tokenBufferEndsWith self.tokenBuffer (ascii "\\z"))) := by
      have hlen : (ascii "\\z").length ≤ self.tokenBuffer.length := h
      rw [tokenBufferEndsWith_eq hlen]
      split
      · next hnl => simp [hnl.1, hnl.2]
      · next hnl => simp [← and_assoc, hnl]
    rw [consumeQuoteLoop, Lexer.consumeQuoteLoop, hescaped]
    simp only [Option.bind_eq_bind, Option.bind_some, Bool.not_not, decide_eq_true_eq]
    split
    · rfl
    split
    · exact ih prev _ (length_next h)
    split
    · rfl
    split
    · rfl
    · exact ih _ _ (length_next (length_append h curr))

/-! ## Long brackets -/

/-- A complete opening bracket is longer than its depth, which counts the equals signs in it. By
induction on the bytes behind the first bracket; what is no opening bracket has the depth -1. -/
theorem longBracketDepth_bound (s : Bytes) (depth : Int) :
    ((longBracketDepth s depth).1 = true →
      (longBracketDepth s depth).2 + 1 ≤ depth + s.length) ∧
      ((longBracketDepth s depth).1 = false → (longBracketDepth s depth).2 = -1) := by
  induction s generalizing depth with
  | nil => simp [longBracketDepth]
  | cons c s ih =>
    obtain ⟨hopen, hno⟩ := ih (depth + 1)
    rw [longBracketDepth]
    split
    · refine ⟨fun h => ?_, hno⟩
      have := hopen h
      rw [List.length_cons]
      omega
    split
    · refine ⟨fun _ => ?_, fun h => by cases h⟩
      rw [List.length_cons]
      omega
    · exact ⟨fun h => (by cases h), fun _ => rfl⟩

/-- What the loops of long brackets keep: the token is not empty, and no shorter than the closing
bracket once the opening one is complete. -/
structure Bracket (token : Bytes) (isLong : Bool) (depth : Int) : Prop where
  one_le : 1 ≤ token.length
  length_le : isLong = true → depth.toNat + 2 ≤ token.length
  depth_le : isLong = false → depth ≤ 0

/-- What the loops of long brackets keep holds of longer tokens as well. -/
theorem Bracket.mono {token' : Bytes} (h : Bracket token isLong depth)
    (hle : token.length ≤ token'.length) : Bracket token' isLong depth :=
  ⟨h.one_le.trans hle, fun ho => (h.length_le ho).trans hle, h.depth_le⟩

/-- To read a character leaves the token as it is. -/
theorem Bracket.next (h : Bracket self.tokenBuffer isLong depth) :
    Bracket (self.getNextChar cs).2.tokenBuffer isLong depth := by
  rwa [tokenBuffer_getNextChar]

/-- To append a character, or to drop a carriage return, leaves the token long enough. -/
theorem Bracket.keep (h : Bracket self.tokenBuffer isLong depth) (curr : Option UInt8) :
    Bracket (if curr = some 0x0D then self else self.tokenBufferAppend curr).tokenBuffer isLong
      depth := by
  split
  · exact h
  · exact h.mono (length_append (Nat.le_refl _) curr)

/-- The tests of `in_long_bracket` stay inside a token longer than the prefix. -/
theorem inLongBracket_eq (hpre : pre ≠ []) :
    inLongBracket token pre depth = some (Lexer.inLongBracket token pre depth) := by
  have hpos : 0 < pre.length := List.length_pos_iff.mpr hpre
  rw [inLongBracket, Lexer.inLongBracket]
  by_cases hlong : 0 ≤ depth ∧ token.length > pre.length ∧ tokenBufferStartsWith token pre = true
  · obtain ⟨hdepth, hlen, hstart⟩ := hlong
    have hone : (ascii "[").length ≤ token.length := Nat.le_of_lt (Nat.lt_of_le_of_lt hpos hlen)
    have htwo : (ascii "[[").length ≤ token.length := Nat.lt_of_le_of_lt hpos hlen
    simp only [hdepth, hlen, hstart, tokenBufferEndsWith_eq hone, tokenBufferEndsWith_eq htwo,
      true_and, if_true, Option.bind_eq_bind, Option.bind_some]
    split
    · split <;> rfl
    · rfl
  · rw [if_neg hlong, if_neg fun h => hlong ⟨h.1, h.2.1, h.2.2.1⟩]

/-- The opening bracket just completed is two bytes longer than its depth at least, so that the
closing bracket fits in the token. -/
theorem inLongBracket_bound (hpre : pre ≠ []) (hdepth : depth ≤ 0) :
    ((Lexer.inLongBracket token pre depth).1 = true →
      (Lexer.inLongBracket token pre depth).2.toNat + 2 ≤ token.length) ∧
      ((Lexer.inLongBracket token pre depth).1 = false →
        (Lexer.inLongBracket token pre depth).2 ≤ 0) := by
  have hpos : 0 < pre.length := List.length_pos_iff.mpr hpre
  obtain ⟨hopen, hno⟩ := longBracketDepth_bound (token.drop pre.length) depth
  rw [List.length_drop] at hopen
  rw [Lexer.inLongBracket]
  split
  · next hlong =>
    have hlen := hlong.2.1
    split
    · exact ⟨fun _ => by dsimp only; omega, fun h => by cases h⟩
    · refine ⟨fun h => ?_, fun h => ?_⟩
      · have := hopen h
        omega
      · rw [hno h]
        omega
  · exact ⟨fun h => (by cases h), fun _ => hdepth⟩

/-- The test for an opening bracket. -/
theorem Bracket.start (h : Bracket token isLong depth) (hpre : pre ≠ []) :
    let start := if isLong then (true, depth) else Lexer.inLongBracket token pre depth
    (if isLong then some (true, depth) else inLongBracket token pre depth) = some start ∧
      Bracket token start.1 start.2 := by
  cases isLong with
  | false =>
    obtain ⟨hopen, hno⟩ := inLongBracket_bound hpre (h.depth_le rfl)
    exact ⟨inLongBracket_eq hpre, h.one_le, hopen, hno⟩
  | true => exact ⟨rfl, h⟩

/-- The test for the closing bracket stays inside the token behind an opening bracket of the same
depth. -/
theorem Bracket.close (h : Bracket token isLong depth) :
    (if isLong then endsWithLongBracket token depth else some false) =
      some (isLong && Lexer.endsWithLongBracket token depth) := by
  cases isLong with
  | false => rfl
  | true =>
    have hone : (ascii "]").length ≤ token.length := h.one_le
    have hclose :
        ((0x5D : UInt8) :: List.replicate depth.toNat 0x3D ++ [0x5D]).length ≤ token.length := by
      rw [List.length_append, List.length_cons, List.length_replicate, List.length_singleton]
      exact h.length_le rfl
    simp only [endsWithLongBracket, Lexer.endsWithLongBracket, tokenBufferEndsWith_eq hone,
      tokenBufferEndsWith_eq hclose, Option.bind_eq_bind, Option.bind_some, Bool.true_and, if_true]
    split
    · next hend => rw [hend, Bool.true_and]
    · next hend => rw [Bool.eq_false_iff.mpr hend, Bool.false_and]

/-- The checked loop of comments compares no suffix that is longer than the token, so it is the loop
of the lexer. By induction on its turns. -/
theorem consumeCommentLoop_eq (fuel : Nat) (curr : Option UInt8)
    (h : Bracket self.tokenBuffer isLong depth) :
    consumeCommentLoop cs fuel curr isLong depth self =
      some (Lexer.consumeCommentLoop cs fuel curr isLong depth self) := by
  induction fuel generalizing curr isLong depth self with
  | zero => rfl
  | succ fuel ih =>
    have hkeep := h.keep curr
    rw [consumeCommentLoop, Lexer.consumeCommentLoop]
    split
    · rfl
    dsimp only
    generalize (if curr = some 0x0D then self else self.tokenBufferAppend curr) = self' at *
    obtain ⟨hsome, hstart⟩ := hkeep.start (List.cons_ne_nil 0x2D [0x2D, 0x5B])
    have hpre : ascii "--[" = [0x2D, 0x2D, 0x5B] := rfl
    rw [hpre, hsome]
    generalize (if isLong then (true, depth) else _) = start at *
    simp only [Option.bind_eq_bind, Option.bind_some, hstart.close, Bool.and_eq_true]
    split
    · rfl
    split
    · rfl
    · exact ih _ hstart.next

/-- The checked loop of long strings is that of the lexer, by the same induction on its turns. -/
theorem longStringLoop_eq (fuel : Nat) (curr : Option UInt8)
    (h : Bracket self.tokenBuffer isLong depth) :
    longStringLoop cs fuel curr isLong depth self =
      some (Lexer.longStringLoop cs fuel curr isLong depth self) := by
  induction fuel generalizing curr isLong depth self with
  | zero => rfl
  | succ fuel ih =>
    have hkeep := h.keep curr
    rw [longStringLoop, Lexer.longStringLoop]
    split
    · rfl
    dsimp only
    generalize (if curr = some 0x0D then self else self.tokenBufferAppend curr) = self' at *
    obtain ⟨hsome, hpast⟩ := hkeep.start (List.cons_ne_nil 0x5B [])
    have hpre : ascii "[" = [0x5B] := rfl
    rw [hpre, hsome]
    generalize (if isLong then (true, depth) else _) = past at *
    simp only [Option.bind_eq_bind, Option.bind_some, hpast.close, Bool.and_eq_true]
    split
    · rfl
    split
    · rfl
    · exact ih _ hpast.next

/-- Behind its first two bytes a long string is parsed without reading in front of the token. -/
theorem parseLongString_eq (h : 2 ≤ self.tokenBuffer.length) :
    parseLongString cs self = some (Lexer.parseLongString cs self) := by
  have htwo : (ascii "]]").length ≤ self.tokenBuffer.length := h
  have hbracket :
      Bracket self.tokenBuffer (tokenBufferStartsWith self.tokenBuffer (ascii "[[")) 0 :=
    ⟨Nat.le_of_succ_le h, fun _ => h, fun _ => Int.le_refl 0⟩
  rw [parseLongString, Lexer.parseLongString]
  simp only [tokenBufferEndsWith_eq htwo, Option.bind_eq_bind, Option.bind_some]
  split
  · rfl
  · exact longStringLoop_eq _ _ hbracket.next

/-! ## The quote and a newline -/

/-- The loop behind the quote, which is all of the token: `\z` is compared with it where the first
byte to be kept is a newline. By induction on the bytes: carriage returns are dropped, so that the
token stays one byte long, and any other byte makes it long enough for all tests behind it. -/
theorem consumeQuoteLoop_first (hq : q ≠ 0x5C) (r : Bytes) {pre : Bytes} {fuel : Nat}
    {curr : Option UInt8} (h : At cs pre r curr self) (hfuel : r.length < fuel)
    (hbuf : self.tokenBuffer = [q]) :
    consumeQuoteLoop cs q fuel q curr self =
      if (r.dropWhile (· = 0x0D)).head? = some 0x0A then none
      else some (Lexer.consumeQuoteLoop cs q fuel q curr self) := by
  induction r generalizing pre fuel curr self with
  | nil =>
    obtain ⟨fuel, rfl⟩ := Nat.exists_eq_succ_of_ne_zero (Nat.ne_of_gt hfuel)
    have heos : self.eos = true := h.eos_eq
    rw [consumeQuoteLoop, Lexer.consumeQuoteLoop, if_pos heos, if_pos heos]
    rfl
  | cons c r ih =>
    obtain ⟨fuel, rfl⟩ := Nat.exists_eq_succ_of_ne_zero (Nat.ne_of_gt (Nat.zero_lt_of_lt hfuel))
    have heos : ¬ self.eos = true := by rw [h.eos_eq]; simp
    have hcurr : curr = some c := h.curr_eq
    subst hcurr
    rw [consumeQuoteLoop, Lexer.consumeQuoteLoop, if_neg heos, if_neg heos]
    rcases eq_or_ne c 0x0D with rfl | hcr
    · rw [if_pos rfl, if_pos rfl]
      have hdrop : (0x0D :: r).dropWhile (· = 0x0D) = r.dropWhile (· = 0x0D) := by simp
      rw [hdrop]
      exact ih h.next (Nat.lt_of_succ_lt_succ hfuel) (by rw [tokenBuffer_getNextChar, hbuf])
    · have hdrop : (c :: r).dropWhile (· = 0x0D) = c :: r := by simp [hcr]
      have hnocr : ¬ some c = some 0x0D := fun heq => hcr (Option.some.inj heq)
      rw [hdrop, if_neg hnocr, if_neg hnocr, List.head?_cons]
      rcases eq_or_ne c 0x0A with rfl | hlf
      · have hnone : tokenBufferEndsWith self.tokenBuffer (ascii "\\z") = none := by
          rw [hbuf]
          rfl
        rw [if_pos rfl, if_pos ⟨rfl, hq⟩, hnone]
        rfl
      · have hnolf : ¬ some c = some 0x0A := fun heq => hlf (Option.some.inj heq)
        have htwo : 2 ≤ (self.tokenBufferAppend (some c)).tokenBuffer.length := by
          rw [tokenBuffer_append_some, hbuf]
          exact Nat.le_refl 2
        have hchecked : ¬ (some c = some 0x0A ∧ q ≠ 0x5C) := fun heq => hnolf heq.1
        have hsource : ¬ (some c = some 0x0A ∧ q ≠ 0x5C ∧
            !Lexer.tokenBufferEndsWith self.tokenBuffer (ascii "\\z")) := fun heq => hnolf heq.1
        rw [if_neg hnolf, if_neg hchecked, if_neg hsource]
        simp only [Option.bind_eq_bind, Option.bind_some, Bool.not_true, Bool.false_eq_true,
          if_false]
        split
        · rfl
        · exact consumeQuoteLoop_eq _ _ _ (length_next htwo)

/-- The bytes start with a quote and a newline, carriage returns apart. -/
def quoteNewline (r : Bytes) : Bool :=
  r.head?.any (fun q => q = 0x27 ∨ q = 0x22) && (r.tail.dropWhile (· = 0x0D)).head? = some 0x0A

/-- The token of a quote has a result unless a newline stands right behind it: that is the one place
where `\z` is looked for in front of the token. -/
theorem consumeUntilMatchingQuote_eq {r : Bytes} (hq : q = 0x27 ∨ q = 0x22)
    (h : At cs pre (q :: r) (some q) self) (hbuf : self.tokenBuffer = [q]) :
    consumeUntilMatchingQuote cs q self =
      if quoteNewline (q :: r) then none
      else some (Lexer.consumeUntilMatchingQuote cs q self) := by
  have hback : q ≠ 0x5C := by rcases hq with rfl | rfl <;> simp
  have hnext : (self.getNextChar cs).2.tokenBuffer = [q] := by rw [tokenBuffer_getNextChar, hbuf]
  have hfirst := consumeQuoteLoop_first hback r h.next (Nat.lt_of_succ_lt h.lt_limit) hnext
  have hquote : quoteNewline (q :: r) = decide ((r.dropWhile (· = 0x0D)).head? = some 0x0A) := by
    rcases hq with rfl | rfl <;> rfl
  simp only [hquote, decide_eq_true_eq]
  exact hfirst

/-- The tokens of other bytes than quotes are read without a look in front of the token. Where such
a token is tested for its end, it has two bytes or more, as many as the end it is compared with. -/
theorem readToken_other {c : UInt8} (hc : ¬ (c = 0x27 ∨ c = 0x22))
    (hbuf : self.tokenBuffer = [c]) :
    readToken cs c self = some (Lexer.readToken cs c self) := by
  have hone : 1 ≤ (self.getNextChar cs).2.tokenBuffer.length :=
    length_next (Nat.le_of_eq (congrArg List.length hbuf).symm)
  have htwo (d : UInt8) :
      2 ≤ ((self.getNextChar cs).2.tokenBufferAppend (some d)).tokenBuffer.length := by
    rw [tokenBuffer_append_some, List.length_append]
    exact Nat.succ_le_succ hone
  rw [readToken, Lexer.readToken]
  split
  · dsimp only
    split
    · next hd =>
      refine parseLongString_eq ?_
      rcases hd with hd | hd
      · exact hd ▸ htwo 0x5B
      · exact hd ▸ htwo 0x3D
    · rfl
  cases punctuation c with
  | some t => rfl
  | none =>
    dsimp only
    split
    · rfl
    split
    · split
      · next hd =>
        rw [hd]
        exact consumeCommentLoop_eq _ _ (Bracket.next
          ⟨Nat.le_of_succ_le (htwo 0x2D), fun h => (by cases h), fun _ => Int.le_refl 0⟩)
      split <;> rfl
    split <;> rfl

/-- The `switch` on the first byte, which stands in the token buffer, has a result unless that is a
quote with a newline behind it. -/
theorem readToken_eq {r : Bytes} {c : UInt8} (h : At cs pre (c :: r) (some c) self)
    (hbuf : self.tokenBuffer = [c]) :
    readToken cs c self =
      if quoteNewline (c :: r) then none else some (Lexer.readToken cs c self) := by
  by_cases hc : c = 0x27 ∨ c = 0x22
  · have hquote := consumeUntilMatchingQuote_eq hc h hbuf
    rcases hc with rfl | rfl
    · exact hquote
    · exact hquote
  · have hno : ¬ quoteNewline (c :: r) = true := by simp [quoteNewline, hc]
    rw [if_neg hno, readToken_other hc hbuf]

/-- **One call**, at the bytes `r`, has a result unless its token is a quote with a newline right
behind it: the only test in front of a token is the one for `\z` there. Behind the whitespace it is
the first byte that decides (`readToken_eq`). -/
theorem nextToken_eq {src r : Bytes} (h : Ready cs src r self) :
    nextToken cs self =
      if quoteNewline (r.dropWhile isSpace) then none else some (Lexer.nextToken cs self) := by
  obtain ⟨-, pre, rfl, hat⟩ := h
  have heos := hat.eos_eq
  cases r with
  | nil =>
    have hno : ¬ quoteNewline (([] : Bytes).dropWhile isSpace) = true := fun h => by cases h
    rw [if_neg hno, nextToken, Lexer.nextToken, if_pos (.inr heos), if_pos (.inr heos)]
  | cons c r =>
    have hne : ¬ (self.getNextChar cs).2.eos = true := by rw [heos]; simp
    rw [if_neg hne] at hat
    have hcurr : (self.getNextChar cs).1 = some c := hat.curr_eq
    have hstart : ¬ ((self.getNextChar cs).1 = none ∨
        (self.getNextChar cs).2.tokenBufferClear.eos = true) := by
      rw [hcurr]
      exact fun h => h.elim (fun h => by cases h) hne
    obtain ⟨hbuf, hlead⟩ := skipSpaces_at (c :: r) hat.clear hat.clear.lt_limit
    rw [nextToken, Lexer.nextToken, if_neg hstart, if_neg hstart]
    dsimp only at hbuf hlead ⊢
    generalize skipSpaces cs _ _ _ = lead at hbuf hlead ⊢
    have hl : lead.1 = ((c :: r).dropWhile isSpace).head? := hlead.curr_eq
    generalize (c :: r).dropWhile isSpace = r' at hlead hl ⊢
    rw [hl] at hlead ⊢
    cases r' with
    | nil => rfl
    | cons d r' =>
      have hfirst : (lead.2.tokenBufferAppend (some d)).tokenBuffer = [d] := by
        rw [tokenBuffer_append_some, hbuf]
        rfl
      have hread := readToken_eq (hlead.append (some d)) hfirst
      simp only [List.head?_cons, hread]
      split <;> rfl

end

end Checked

/-! ## Runs -/

/-- **When suffix tests stay inside the token.** In the call behind any `n` calls on any source,
every suffix test finds a token as long as the suffix iff the bytes left, white space apart, do not
start with a quote and a newline. It is the test for `\z` that looks in front of the token there:
the quote is its only byte. -/
theorem suffix_inside_iff (cs : CharSource σ) (s : σ) (hs : cs.Ok s) (n : Nat) :
    Checked.nextToken cs (after cs { source := s } n) =
        some (nextToken cs (after cs { source := s } n)) ↔
      Checked.quoteNewline ((unread (cs.bytes s) n).dropWhile isSpace) = false := by
  rw [Checked.nextToken_eq (after_ready n (ready_new hs))]
  cases Checked.quoteNewline ((unread (cs.bytes s) n).dropWhile isSpace) with
  | false => exact iff_of_true rfl rfl
  | true => exact iff_of_false (fun h => by cases h) (fun h => by cases h)

/-- The string of the source `a = "\z`, a newline, `"`. -/
theorem suffix_inside_example :
    Checked.nextToken CharSource.ofBytes
        (after CharSource.ofBytes { source := ascii "a = \"\\z\n\"" } 2) =
      some (nextToken CharSource.ofBytes
        (after CharSource.ofBytes { source := ascii "a = \"\\z\n\"" } 2)) :=
  (suffix_inside_iff CharSource.ofBytes (ascii "a = \"\\z\n\"") trivial 2).mpr
    (by decide +kernel)

/-- On a quote and a newline `\z` is compared with the quote and the byte before it. -/
theorem suffix_outside :
    Checked.nextToken CharSource.ofBytes { source := ascii "\"\n" } = none := by
  rw [Checked.nextToken_eq (ready_ofBytes (ascii "\"\n"))]
  rfl

end Lexer

end Eltn
