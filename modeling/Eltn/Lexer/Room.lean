import Eltn.Lexer.Names

/-!
# The room in the token buffer

The recorded size of the token buffer stays at its first value, so the block never grows beyond
twice that size. `Sized` is the invariant of every state inside a call of `nextToken`: all writes
were inside the block iff they were before the call and the token is not longer than `maxToken`.
-/

namespace Eltn

/-- The longest token with room for its terminator. -/
def maxToken : Nat := 2 * tokenBufSize - 1

namespace Lexer

variable {σ : Type} {cs : CharSource σ} {ok : Prop} {self : Lexer σ}

/-- The sizes and the writes inside a call, `ok` being the state of the writes before it: all of
them are inside the block exactly while the token is not longer than `maxToken`. -/
structure Sized (ok : Prop) (l : Lexer σ) : Prop where
  size : l.tokenBufferSize = tokenBufSize
  block : tokenBufSize ≤ l.tokenBufferBlock
  room : l.tokenBufferRoom = true ↔ ok ∧ l.tokenBuffer.length ≤ maxToken

/-- Reading a character does not touch the token buffer. -/
theorem Sized.next (h : Sized ok self) : Sized ok (self.getNextChar cs).2 := by
  unfold getNextChar
  split
  · exact ⟨h.size, h.block, h.room⟩
  split
  · exact h
  · dsimp only
    split <;> exact ⟨h.size, h.block, h.room⟩

/-- The sizes have nothing to do with a byte put back. -/
theorem Sized.pushback (h : Sized ok self) (b : Bool) : Sized ok { self with pushback := b } :=
  ⟨h.size, h.block, h.room⟩

/-- **One byte more.** The block has grown by then where the token is as long as the recorded size,
and is full at twice that size. -/
theorem Sized.append (h : Sized ok self) (cp : Option UInt8) :
    Sized ok (self.tokenBufferAppend cp) := by
  obtain ⟨hsize, hblock, hroom⟩ := h
  cases cp with
  | none => exact ⟨hsize, hblock, hroom⟩
  | some c =>
    unfold tokenBufSize at hblock
    refine ⟨hsize, ?_, ?_⟩
    · simp only [tokenBufferAppend, hsize, tokenBufSize]
      split <;> omega
    · simp only [tokenBufferAppend, hsize, Bool.and_eq_true, hroom, decide_eq_true_eq,
        List.length_append, List.length_singleton, and_assoc]
      refine and_congr_right fun _ => ?_
      unfold maxToken tokenBufSize
      split <;> omega

/-- The sizes are right on both branches. -/
theorem Sized.ite {p : Prop} [Decidable p] {l l' : Lexer σ} (h : Sized ok l) (h' : Sized ok l') :
    Sized ok (if p then l else l') := by
  split
  · exact h
  · exact h'

/-- A call starts with an empty token, and clears no more than the block. -/
theorem Sized.clear (h : Sized ok self) :
    Sized (self.tokenBufferRoom = true) self.tokenBufferClear := by
  have hfits : self.tokenBufferSize ≤ self.tokenBufferBlock := h.size ▸ h.block
  exact ⟨h.size, h.block, by simp [tokenBufferClear, hfits]⟩

/-! ## The token loops -/

/-- The loop of quoted strings keeps the sizes, by induction on its turns: what changes them is
appending a character. -/
theorem consumeQuoteLoop_sized (q : UInt8) (fuel : Nat) : ∀ (prev : UInt8) (curr : Option UInt8)
    {self : Lexer σ}, Sized ok self → Sized ok (consumeQuoteLoop cs q fuel prev curr self).2 := by
  induction fuel with
  | zero => exact fun prev curr self h => h
  | succ fuel ih =>
    intro prev curr self h
    rw [consumeQuoteLoop]
    split
    · exact h
    split
    · exact ih prev _ h.next
    split
    · exact h
    dsimp only
    split
    · exact h.append curr
    · exact ih _ _ (h.append curr).next

/-- The loop of comments keeps the sizes, by induction on its turns. -/
theorem consumeCommentLoop_sized (fuel : Nat) : ∀ (curr : Option UInt8) (isLong : Bool)
    (depth : Int) {self : Lexer σ}, Sized ok self →
    Sized ok (consumeCommentLoop cs fuel curr isLong depth self).2 := by
  induction fuel with
  | zero => exact fun curr isLong depth self h => h
  | succ fuel ih =>
    intro curr isLong depth self h
    have hkeep : Sized ok (if curr = some 0x0D then self else self.tokenBufferAppend curr) :=
      h.ite (h.append curr)
    rw [consumeCommentLoop]
    split
    · exact h
    dsimp only
    generalize (if curr = some 0x0D then self else self.tokenBufferAppend curr) = self' at *
    generalize (if isLong then (true, depth) else _) = start
    split
    · exact hkeep
    split
    · exact hkeep
    · exact ih _ _ _ hkeep.next

/-- The loop of long strings keeps the sizes, by induction on its turns. -/
theorem longStringLoop_sized (fuel : Nat) : ∀ (curr : Option UInt8) (pastOpen : Bool)
    (depth : Int) {self : Lexer σ}, Sized ok self →
    Sized ok (longStringLoop cs fuel curr pastOpen depth self).2 := by
  induction fuel with
  | zero => exact fun curr pastOpen depth self h => h
  | succ fuel ih =>
    intro curr pastOpen depth self h
    have hkeep : Sized ok (if curr = some 0x0D then self else self.tokenBufferAppend curr) :=
      h.ite (h.append curr)
    rw [longStringLoop]
    split
    · exact h
    dsimp only
    generalize (if curr = some 0x0D then self else self.tokenBufferAppend curr) = self' at *
    generalize (if pastOpen then (true, depth) else _) = past
    split
    · exact hkeep
    split
    · exact hkeep
    · exact ih _ _ _ hkeep.next

/-- The loop of numbers and names keeps the sizes. By induction on its turns, each of which appends
one byte. -/
theorem appendWhile_sized (p : UInt8 → Bool) (fuel : Nat) : ∀ (curr : Option UInt8)
    {self : Lexer σ}, Sized ok self → Sized ok (appendWhile cs p fuel curr self) := by
  induction fuel with
  | zero => exact fun curr self h => h.pushback true
  | succ fuel ih =>
    intro curr self h
    rw [appendWhile]
    split
    · exact ih _ (h.append curr).next
    · exact h.pushback true

/-- The loop over whitespace, which appends nothing, keeps the sizes. -/
theorem skipSpaces_sized (fuel : Nat) : ∀ (curr : Option UInt8) {self : Lexer σ}, Sized ok self →
    Sized ok (skipSpaces cs fuel curr self).2 := by
  induction fuel with
  | zero => exact fun curr self h => h
  | succ fuel ih =>
    intro curr self h
    rw [skipSpaces]
    split
    · exact ih _ h.next
    · exact h

/-- Behind its first look at the text a long string is that loop. -/
theorem parseLongString_sized (h : Sized ok self) : Sized ok (parseLongString cs self).2 := by
  rw [parseLongString]
  split
  · exact h.next
  · exact longStringLoop_sized _ _ _ _ h.next

/-- The `switch` on the first byte keeps the sizes, in each of its cases, as all of them append to
the token in the same way. -/
theorem readToken_sized (c : UInt8) (h : Sized ok self) : Sized ok (readToken cs c self).2 := by
  rw [readToken]
  split
  · dsimp only
    split
    · exact parseLongString_sized (h.next.append _)
    · exact h.next.pushback true
  cases punctuation c with
  | some t => exact h
  | none =>
    dsimp only
    split
    · exact appendWhile_sized isNumberPart _ _ h.next
    split
    · split
      · exact consumeCommentLoop_sized _ _ _ _ (h.next.append _).next
      split
      · exact appendWhile_sized isNumberPart _ _ (h.next.append _).next
      · exact h.next.pushback true
    split
    · exact consumeQuoteLoop_sized c _ _ _ h.next
    split
    · exact appendWhile_sized isNamePart _ _ h.next
    · exact h

/-- To read a character writes nothing to the token buffer. -/
theorem getNextChar_room (self : Lexer σ) :
    (self.getNextChar cs).2.tokenBufferRoom = self.tokenBufferRoom := by
  unfold getNextChar
  split
  · rfl
  split
  · rfl
  · dsimp only
    split <;> rfl

/-- **One call** keeps the sizes, the state of the writes before it being what the lexer has
recorded. -/
theorem Sized.nextToken (h : Sized ok self) :
    Sized (self.tokenBufferRoom = true) (nextToken cs self).2 := by
  have hnext : Sized ok (self.getNextChar cs).2 := h.next
  have hclear := hnext.clear
  rw [getNextChar_room] at hclear
  rw [Lexer.nextToken]
  dsimp only
  split
  · exact hclear
  have hspaces : Sized (self.tokenBufferRoom = true)
      (skipSpaces cs (limit cs (self.getNextChar cs).2.tokenBufferClear) (self.getNextChar cs).1
        (self.getNextChar cs).2.tokenBufferClear).2 := skipSpaces_sized _ _ hclear
  have hlead := hspaces.append
    (skipSpaces cs (limit cs (self.getNextChar cs).2.tokenBufferClear) (self.getNextChar cs).1
      (self.getNextChar cs).2.tokenBufferClear).1
  split
  · exact hlead
  · exact readToken_sized _ hlead

/-! ## Runs -/

/-- The bytes that `k` calls leave of the bytes `r`. -/
def unread (r : Bytes) (k : Nat) : Bytes := (fun r => (scan r).rest)^[k] r

/-- Calls are counted from the first. -/
theorem unread_succ (r : Bytes) (k : Nat) : unread r (k + 1) = unread (scan r).rest k := by
  rw [unread, Function.iterate_succ_apply, unread]

/-- After `n` calls the lexer stands before what they leave. -/
theorem after_ready {src r : Bytes} (n : Nat) (h : Ready cs src r self) :
    Ready cs src (unread r n) (after cs self n) := by
  induction n generalizing self r with
  | zero => exact h
  | succ n ih =>
    rw [unread_succ, after_succ]
    exact ih (nextToken_agrees h).1.2.2

/-- After `n` calls all writes were inside the block iff no token read was too long. By induction on
the calls, with `Sized.nextToken` as the step. -/
theorem after_room {src r : Bytes} (n : Nat) (hready : Ready cs src r self) (h : Sized ok self) :
    (after cs self n).tokenBufferRoom = true ↔
      self.tokenBufferRoom = true ∧ ∀ k < n, (scan (unread r k)).text.length ≤ maxToken := by
  induction n generalizing self r ok with
  | zero => simp [after]
  | succ n ih =>
    obtain ⟨⟨-, htext, hnext⟩, -⟩ := nextToken_agrees hready
    have hsized : Sized (self.tokenBufferRoom = true) (nextToken cs self).2 := h.nextToken
    have hroom := hsized.room
    rw [htext] at hroom
    rw [after_succ, ih hnext hsized, hroom, and_assoc, Nat.forall_lt_succ_left]
    simp only [unread_succ]
    rfl

/-- A new lexer has a buffer of the size it records, and nothing was written yet. -/
theorem sized_new {s : σ} : Sized True { source := s } :=
  ⟨rfl, le_rfl, iff_of_true rfl ⟨trivial, Nat.zero_le _⟩⟩

/-- **When the token buffer has room.** After any number of calls on any source, every byte that was
written to the token buffer was inside its block iff no token read so far is longer than 2047 bytes,
carriage returns not counted. The block grows to a size that is computed from the recorded one, and
that is never changed. -/
theorem tokenBuffer_room_iff (cs : CharSource σ) (s : σ) (hs : cs.Ok s) (n : Nat) :
    (after cs { source := s } n).tokenBufferRoom = true ↔
      ∀ k < n, (scan (unread (cs.bytes s) k)).text.length ≤ 2047 := by
  rw [after_room n (ready_new hs) sized_new]
  exact and_iff_right rfl

/-- Two calls on the source `a =`. -/
theorem tokenBuffer_room_example :
    (after CharSource.ofBytes { source := ascii "a =" } 2).tokenBufferRoom = true ↔
      ∀ k < 2, (scan (unread (ascii "a =") k)).text.length ≤ 2047 :=
  tokenBuffer_room_iff CharSource.ofBytes (ascii "a =") trivial 2

/-- The first call on a name of 2048 bytes writes its terminator behind the block. It is the least
length for which that happens. -/
theorem tokenBuffer_overflows :
    (after CharSource.ofBytes { source := List.replicate 2048 0x61 } 1).tokenBufferRoom =
      false := by
  have hname : scan (List.replicate 2048 0x61 ++ []) =
      ⟨nameToken (List.replicate 2048 0x61), List.replicate 2048 0x61, []⟩ :=
    scan_name rfl (fun c hc => by rw [List.eq_of_mem_replicate hc]; rfl) rfl
  rw [List.append_nil] at hname
  rw [Bool.eq_false_iff, Ne, after_room 1
    (ready_ofBytes (List.replicate 2048 0x61)) sized_new]
  rintro ⟨-, hall⟩
  have hlen := hall 0 Nat.zero_lt_one
  rw [unread, Function.iterate_zero_apply] at hlen
  rw [hname, List.length_replicate] at hlen
  exact absurd hlen (by decide)

end Lexer

end Eltn
