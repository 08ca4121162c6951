import Eltn.Lexer.Compare
import Eltn.Lexer.Spans
import Eltn.Lib.Occurs

/-!
# Long brackets

A long string or long comment is open once an opening bracket `[=*[` is complete behind its prefix,
and ends at the first closing bracket of its level. Open, both loops read until the text ends with
that bracket (`longString_open`, `comment_open`). Before, the lexer recovers the level by a rescan
of the token at each `[`; what it has read then is a part of an opening bracket, or can never become
one (`Closed`). `longBrackets_exact` says it of the lexer.
-/

namespace Eltn

open Occurs

/-- The opening bracket of level `n`. -/
def opener (n : Nat) : Bytes := 0x5B :: (List.replicate n 0x3D ++ [0x5B])

/-- The closing bracket of level `n`. -/
def closer (n : Nat) : Bytes := 0x5D :: (List.replicate n 0x3D ++ [0x5D])

namespace Scan

open Lexer

section
variable {c : UInt8} {n k : Nat} {d : Int} {pre text p r s front rest : Bytes}

/-- A closing bracket has no opening one in it, so the text that a `[` ends does not end with one.
-/
theorem bracket_notMem : 0x5B ∉ closer n := by simp [closer, List.mem_replicate]

/-- Nor a zero byte, so `strncmp` compares all of it. -/
theorem zero_notMem_closer : 0 ∉ closer n := by simp [closer, List.mem_replicate]

/-- The prefix that the lexer looks for in long strings, as a byte. -/
theorem ascii_bracket : ascii "[" = [0x5B] := rfl

/-- The prefix of the lowest level, as bytes. -/
theorem ascii_brackets : ascii "[[" = [0x5B, 0x5B] := rfl

/-- The comparison of `token_buffer_ends_with` with that prefix is the relation on lists. -/
theorem endsWith_bracket : tokenBufferEndsWith text (ascii "[") = true ↔ [0x5B] <:+ text :=
  tokenBufferEndsWith_iff (by simp [ascii_bracket])

/-- So is that with the prefix of the lowest level. -/
theorem endsWith_brackets : tokenBufferEndsWith text (ascii "[[") = true ↔ [0x5B, 0x5B] <:+ text :=
  tokenBufferEndsWith_iff (by simp [ascii_brackets])

/-- `token_buffer_ends_with_long_bracket`. -/
theorem endsWithLongBracket_iff : endsWithLongBracket text n = true ↔ closer n <:+ text := by
  have hcloser : (0x5D :: List.replicate (n : Int).toNat 0x3D ++ [0x5D]) = closer n := by
    simp [closer]
  rw [endsWithLongBracket, Bool.and_eq_true, hcloser, tokenBufferEndsWith_iff zero_notMem_closer,
    tokenBufferEndsWith_iff (by decide)]
  refine and_iff_right_of_imp fun h => List.IsSuffix.trans ?_ h
  exact ⟨0x5D :: List.replicate n 0x3D, rfl⟩

/-! ## Inside a long bracket -/

/-- The scan behind an opening bracket, as an outcome of `readUntil`. -/
def ofRead (long : Token) (text : Bytes) : Option (Bytes × Bytes) → Scan
  | some (text, rest) => ⟨long, text, rest⟩
  | none => ⟨.invalid, text, []⟩

/-- Behind its opening bracket a long string is read up to the first closing bracket of its level,
if there are no carriage returns to drop. -/
theorem longString_open (hcr : 0x0D ∉ r) : longString true n text r =
    ofRead .longString (text ++ r) (readUntil (endsWithLongBracket · n) text r) := by
  induction r generalizing text with
  | nil => simp [longString, readUntil, ofRead]
  | cons c r ih =>
    obtain ⟨hc, hr⟩ : 0x0D ≠ c ∧ 0x0D ∉ r := by simpa using hcr
    rw [longString, keep, if_neg (Ne.symm hc), readUntil]
    by_cases hend : endsWithLongBracket (text ++ [c]) n = true
    · simp [hend, ofRead]
    · simp [hend, ih hr]

/-- So is a long comment, from behind its opening bracket on: it is read until the text ends with a
closing bracket of its level. -/
theorem comment_open (hcr : 0x0D ∉ r) : comment true n text r =
    ofRead .longComment (text ++ r) (readUntil (endsWithLongBracket · n) text r) := by
  induction r generalizing text with
  | nil => simp [comment, readUntil, ofRead]
  | cons c r ih =>
    obtain ⟨hc, hr⟩ : 0x0D ≠ c ∧ 0x0D ∉ r := by simpa using hcr
    rw [comment, keep, if_neg (Ne.symm hc), readUntil]
    by_cases hend : endsWithLongBracket (text ++ [c]) n = true
    · simp [hend, ofRead]
    · simp [hend, ih hr]

/-! ## The opening bracket -/

/-- The rescan of a complete opening bracket finds its level. -/
theorem longBracketDepth_opener (k : Nat) (d : Int) :
    longBracketDepth (List.replicate k 0x3D ++ [0x5B]) d = (true, d + k) := by
  induction k generalizing d with
  | zero => simp [longBracketDepth]
  | succ k ih =>
    rw [List.replicate_succ, List.cons_append, longBracketDepth, if_pos rfl, ih]
    simp
    omega

/-- The rescan stops at another byte. -/
theorem longBracketDepth_closed (k : Nat) (d : Int) (hc : c ≠ 0x3D ∧ c ≠ 0x5B) :
    longBracketDepth (List.replicate k 0x3D ++ c :: s) d = (false, -1) := by
  induction k generalizing d with
  | zero => simp [longBracketDepth, hc]
  | succ k ih => rw [List.replicate_succ, List.cons_append, longBracketDepth, if_pos rfl, ih]

/-- Only a `[` can complete an opening bracket: behind any other byte nothing is found, and the
depth stays. -/
theorem inLongBracket_ne (hc : c ≠ 0x5B) (d : Int) :
    inLongBracket (text ++ [c]) pre d = (false, d) := by
  rw [inLongBracket, if_neg]
  rintro ⟨-, -, -, hend⟩
  obtain ⟨front, heq⟩ := endsWith_bracket.mp hend
  have hlast : [0x5B] = [c] := (List.append_inj' heq rfl).2
  cases hlast
  exact hc rfl

/-- The prefix of an opening bracket: it ends with the first bracket. -/
structure BracketPrefix (pre : Bytes) : Prop where
  zero : 0 ∉ pre
  last : ∃ front, pre = front ++ [0x5B]

/-- The test at a bracket behind the prefix, if that does not follow one: the bytes behind the
prefix are counted again from the depth the lexer has. -/
theorem inLongBracket_rescan (hpre : 0 ∉ pre) (hd : 0 ≤ d) (hc : c ≠ 0x5B) :
    inLongBracket (pre ++ (s ++ [c, 0x5B])) pre d =
      longBracketDepth (s ++ [c, 0x5B]) d := by
  have hstart : tokenBufferStartsWith (pre ++ (s ++ [c, 0x5B])) pre = true :=
    (tokenBufferStartsWith_iff hpre).mpr (List.prefix_append _ _)
  have hend : tokenBufferEndsWith (pre ++ (s ++ [c, 0x5B])) (ascii "[") = true :=
    endsWith_bracket.mpr ⟨pre ++ (s ++ [c]), by simp⟩
  have htwo : tokenBufferEndsWith (pre ++ (s ++ [c, 0x5B])) (ascii "[[") = false := by
    rw [Bool.eq_false_iff, Ne, endsWith_brackets, ← List.append_assoc]
    rintro ⟨front, heq⟩
    have hlast : [0x5B, 0x5B] = [c, 0x5B] := (List.append_inj' heq rfl).2
    cases hlast
    exact hc rfl
  have hlen : (pre ++ (s ++ [c, 0x5B])).length > pre.length := by
    simp only [List.length_append, List.length_cons]
    omega
  rw [inLongBracket, if_pos ⟨hd, hlen, hstart, hend⟩, htwo, if_neg (by simp), List.drop_left]

/-- An opening bracket behind its prefix is found, with its depth, at its last byte. With equals
signs in it the text is scanned again from the prefix on (`inLongBracket_rescan`); without any it
ends with two brackets. -/
theorem inLongBracket_opener (hpre : BracketPrefix pre) (k : Nat) :
    inLongBracket (pre ++ (List.replicate k 0x3D ++ [0x5B])) pre 0 = (true, (k : Int)) := by
  cases k with
  | zero =>
    obtain ⟨front, rfl⟩ := hpre.last
    have hstart : tokenBufferStartsWith (front ++ [0x5B] ++ [0x5B]) (front ++ [0x5B]) = true :=
      (tokenBufferStartsWith_iff hpre.zero).mpr (List.prefix_append _ _)
    have hend : tokenBufferEndsWith (front ++ [0x5B] ++ [0x5B]) (ascii "[") = true :=
      endsWith_bracket.mpr (List.suffix_append _ _)
    have htwo : tokenBufferEndsWith (front ++ [0x5B] ++ [0x5B]) (ascii "[[") = true :=
      endsWith_brackets.mpr ⟨front, by simp⟩
    rw [List.replicate_zero, List.nil_append, inLongBracket,
      if_pos ⟨Int.le_refl 0, by simp, hstart, hend⟩, htwo]
    rfl
  | succ k =>
    have hsplit : List.replicate (k + 1) (0x3D : UInt8) ++ [0x5B] =
        List.replicate k 0x3D ++ [0x3D, 0x5B] := by
      rw [List.replicate_succ', List.append_assoc]
      rfl
    have hdepth := longBracketDepth_opener (k + 1) 0
    rw [hsplit] at hdepth ⊢
    rw [inLongBracket_rescan hpre.zero (Int.le_refl 0) (by simp), hdepth, Int.zero_add]

/-- The prefix of long strings is the bracket itself. -/
theorem bracketPrefix_string : BracketPrefix (ascii "[") := ⟨by decide, [], rfl⟩

/-- The prefix of long comments has the two dashes in front of the bracket. -/
theorem bracketPrefix_comment : BracketPrefix (ascii "--[") := ⟨by decide, [0x2D, 0x2D], rfl⟩

/-- At the end of an opening bracket no closing one ends. -/
theorem endsWith_opener (text : Bytes) (n : Nat) :
    endsWithLongBracket (text ++ [0x5B]) n = false := by
  rw [Bool.eq_false_iff, Ne, endsWithLongBracket_iff]
  intro h
  have hnil := (suffix_behind bracket_notMem (s := [])).mp (by simpa using h)
  simp [closer] at hnil

/-- A turn of the loop before the bracket is open. -/
theorem longString_step {b : Bool} {d' : Int} (hc : c ≠ 0x0D)
    (h : inLongBracket (text ++ [c]) (ascii "[") d = (b, d')) :
    longString false d text (c :: r) =
      if !b ∧ (c ≠ 0x3D ∨ d' < 0) then ⟨.invalid, text ++ [c], r⟩
      else if b ∧ endsWithLongBracket (text ++ [c]) d' then ⟨.longString, text ++ [c], r⟩
      else longString b d' (text ++ [c]) r := by
  simp only [longString, keep, if_neg hc, Bool.false_eq_true, if_false, h]

/-- One turn of the loop over a comment that has not opened a bracket, in terms of what the look at
the text found. -/
theorem comment_step {b : Bool} {d' : Int} (hc : c ≠ 0x0D)
    (h : inLongBracket (text ++ [c]) (ascii "--[") d = (b, d')) :
    comment false d text (c :: r) =
      if !b ∧ c = 0x0A then ⟨.comment, text ++ [c], r⟩
      else if b ∧ endsWithLongBracket (text ++ [c]) d' then ⟨.longComment, text ++ [c], r⟩
      else comment b d' (text ++ [c]) r := by
  simp only [comment, keep, if_neg hc, Bool.false_eq_true, if_false, h]

/-- A long string up to the end of its opening bracket: the equals signs are passed, and the depth
is their number. By induction on those that are left. -/
theorem longString_level (m : Nat) :
    longString false 0 (0x5B :: List.replicate k 0x3D) (List.replicate m 0x3D ++ 0x5B :: s) =
      longString true ((k + m : Nat) : Int) (opener (k + m)) s := by
  induction m generalizing k with
  | zero =>
    have hopen := inLongBracket_opener bracketPrefix_string k
    rw [List.replicate_zero, List.nil_append, longString_step (by simp) hopen,
      endsWith_opener]
    simp [opener]
  | succ m ih =>
    have ih := ih (k := k + 1)
    rw [List.replicate_succ'] at ih
    rw [List.replicate_succ, List.cons_append,
      longString_step (by simp) (inLongBracket_ne (by simp) 0), if_neg (by simp), if_neg (by simp),
      List.cons_append, ih, Nat.add_assoc, Nat.add_comm 1 m]

/-- A comment up to the end of its opening bracket is long from there on, with the number of equals
signs as its depth. -/
theorem comment_level (m : Nat) :
    comment false 0 (ascii "--[" ++ List.replicate k 0x3D) (List.replicate m 0x3D ++ 0x5B :: s) =
      comment true ((k + m : Nat) : Int) (ascii "--" ++ opener (k + m)) s := by
  induction m generalizing k with
  | zero =>
    have hopen := inLongBracket_opener bracketPrefix_comment k
    rw [← List.append_assoc] at hopen
    rw [List.replicate_zero, List.nil_append, comment_step (by simp) hopen, endsWith_opener,
      List.append_assoc]
    simp only [Bool.not_true, Bool.false_eq_true, false_and, and_false, if_false]
    rfl
  | succ m ih =>
    have ih := ih (k := k + 1)
    rw [List.replicate_succ', ← List.append_assoc] at ih
    rw [List.replicate_succ, List.cons_append,
      comment_step (by simp) (inLongBracket_ne (by simp) 0), if_neg (by simp), if_neg (by simp),
      ih, Nat.add_assoc, Nat.add_comm 1 m]

/-! ## Short comments -/

/-- The line at the front of a list, with its newline. -/
def firstLine (r : Bytes) : Bytes :=
  r.takeWhile (· ≠ 0x0A) ++ (r.dropWhile (· ≠ 0x0A)).take 1

/-- The bytes behind the first line. -/
def otherLines (r : Bytes) : Bytes := (r.dropWhile (· ≠ 0x0A)).drop 1

/-- A short comment. -/
def shortComment (text r : Bytes) : Scan := ⟨.comment, text ++ firstLine r, otherLines r⟩

/-- A short comment ends with the first newline, which belongs to it. -/
theorem shortComment_newline : shortComment text (0x0A :: r) = ⟨.comment, text ++ [0x0A], r⟩ := by
  simp [shortComment, firstLine, otherLines]

/-- A short comment goes on over any other byte. -/
theorem shortComment_cons (hc : c ≠ 0x0A) :
    shortComment text (c :: r) = shortComment (text ++ [c]) r := by
  simp [shortComment, firstLine, otherLines, hc]

/-- A byte behind which no long bracket is open: the line ends, or goes on. -/
theorem comment_unopened {d' : Int} (hc : 0x0D ≠ c)
    (h : inLongBracket (text ++ [c]) (ascii "--[") d = (false, d'))
    (hrest : c ≠ 0x0A → comment false d' (text ++ [c]) r = shortComment (text ++ [c]) r) :
    comment false d text (c :: r) = shortComment text (c :: r) := by
  rw [comment_step (Ne.symm hc) h]
  by_cases hlf : c = 0x0A
  · rw [if_pos (by simp [hlf]), hlf, shortComment_newline]
  · rw [if_neg (by simp [hlf]), if_neg (by simp), hrest hlf, shortComment_cons hlf]

/-- The text behind `--` cannot become an opening bracket any more: the lexer has given up, the
prefix is not there, or another byte follows the `=` signs. -/
def Closed (text : Bytes) (d : Int) : Prop :=
  d < 0 ∨ (3 ≤ text.length ∧ ¬ ascii "--[" <+: text) ∨
    ∃ k c s, text = ascii "--[" ++ (List.replicate k 0x3D ++ c :: s) ∧ c ≠ 0x3D ∧
      (0x5B : UInt8) ∉ c :: s

/-- Another byte than a bracket behind `--`. -/
theorem closed_first (hc : c ≠ 0x5B) (d : Int) : Closed (ascii "--" ++ [c]) d := by
  refine .inr (.inl ⟨by simp [ascii], ?_⟩)
  rintro ⟨tail, htail⟩
  have hbytes : ascii "--" ++ 0x5B :: tail = ascii "--" ++ [c] := htail
  cases List.append_cancel_left hbytes
  exact hc rfl

/-- **It never opens again**: the test fails at whatever byte follows, and what follows leaves it
closed too. There are three ways to be closed: the depth is negative, the text does not start with
the opening, or behind the equals signs stands another byte than a bracket. -/
theorem Closed.step (h : Closed text d) (c : UInt8) :
    ∃ d', inLongBracket (text ++ [c]) (ascii "--[") d = (false, d') ∧ Closed (text ++ [c]) d' := by
  rcases h with hd | ⟨hlen, hpre⟩ | ⟨k, b, s, rfl, hb, hs⟩
  · refine ⟨d, ?_, .inl hd⟩
    rw [inLongBracket, if_neg (fun h => absurd h.1 (by omega))]
  · have hpre' : ¬ ascii "--[" <+: text ++ [c] := fun h =>
      hpre (List.prefix_of_prefix_length_le h (List.prefix_append _ _) hlen)
    refine ⟨d, ?_, .inr (.inl ⟨by rw [List.length_append]; omega, hpre'⟩)⟩
    rw [inLongBracket, if_neg]
    exact fun h => hpre' ((tokenBufferStartsWith_iff (by decide)).mp h.2.2.1)
  · by_cases hd : d < 0
    · exact ⟨d, by rw [inLongBracket, if_neg (fun h => absurd h.1 (by omega))], .inl hd⟩
    have hb' : b ≠ 0x5B := fun h => hs (h ▸ List.mem_cons_self)
    by_cases hc : c = 0x5B
    · -- the rescan stops at the other byte
      subst hc
      refine ⟨-1, ?_, .inl (by decide)⟩
      obtain ⟨init, e, he⟩ : ∃ init e, b :: s = init ++ [e] := by
        rcases List.eq_nil_or_concat (b :: s) with h | ⟨init, e, h⟩
        · cases h
        · exact ⟨init, e, by rw [h, List.concat_eq_append]⟩
      have hne : e ≠ 0x5B := fun h => hs (by rw [he, h]; simp)
      have hrescan : inLongBracket (ascii "--[" ++ (List.replicate k 0x3D ++ init ++ [e, 0x5B]))
          (ascii "--[") d = longBracketDepth (List.replicate k 0x3D ++ init ++ [e, 0x5B]) d :=
        inLongBracket_rescan (by decide) (by omega) hne
      have htext : List.replicate k 0x3D ++ init ++ [e, 0x5B] =
          List.replicate k 0x3D ++ b :: (s ++ [0x5B]) := by
        rw [← List.cons_append, he]
        simp
      rw [htext, longBracketDepth_closed k d ⟨hb, hb'⟩] at hrescan
      simpa using hrescan
    · refine ⟨d, inLongBracket_ne hc d, .inr (.inr ⟨k, b, s ++ [c], by simp, hb, ?_⟩)⟩
      rw [← List.cons_append, List.mem_append]
      simpa [Ne.symm hc] using hs

/-- A comment that cannot open a bracket any more is short, whatever brackets stand in it. -/
theorem comment_closed (h : Closed text d) (hcr : 0x0D ∉ r) :
    comment false d text r = shortComment text r := by
  induction r generalizing text d with
  | nil => simp [comment, shortComment, firstLine, otherLines]
  | cons c r ih =>
    obtain ⟨hc, hr⟩ : 0x0D ≠ c ∧ 0x0D ∉ r := by simpa using hcr
    obtain ⟨d', hstep, hclosed⟩ := h.step c
    exact comment_unopened hc hstep fun _ => ih hclosed hr

/-- Behind `--[` and `=` signs, before anything but an opening bracket, the comment is a short one,
which ends with its line. -/
theorem comment_signs (hs : ∀ m t, s ≠ List.replicate m 0x3D ++ 0x5B :: t) (hcr : 0x0D ∉ s) :
    comment false 0 (ascii "--[" ++ List.replicate k 0x3D) s =
      shortComment (ascii "--[" ++ List.replicate k 0x3D) s := by
  induction s generalizing k with
  | nil => simp [comment, shortComment, firstLine, otherLines]
  | cons c s ih =>
    obtain ⟨hc, hrest⟩ : 0x0D ≠ c ∧ 0x0D ∉ s := by simpa using hcr
    have hopen : c ≠ 0x5B := by
      rintro rfl
      exact hs 0 s rfl
    refine comment_unopened hc (inLongBracket_ne hopen 0) fun _ => ?_
    by_cases heq : c = 0x3D
    · subst heq
      have ih := ih (k := k + 1) (fun m t ht => hs (m + 1) t (by
        rw [ht, List.replicate_succ, List.cons_append])) hrest
      rwa [List.replicate_succ', ← List.append_assoc] at ih
    · refine comment_closed (.inr (.inr ⟨k, c, [], by simp, heq, ?_⟩)) hrest
      simpa using Ne.symm hopen

/-- Behind `--[` alone the lexer has found no opening bracket yet, and has not given up. -/
theorem inLongBracket_first :
    inLongBracket (ascii "--" ++ [0x5B]) (ascii "--[") 0 = (false, 0) := by decide

/-- The first bracket behind `--`. -/
theorem comment_bracket : comment false 0 (ascii "--") (0x5B :: s) =
    comment false 0 (ascii "--[") s := by
  rw [comment_step (by simp) inLongBracket_first, if_neg (by simp), if_neg (by simp)]
  rfl

/-- A comment that opens no long bracket is its line, with the newline that ends it. -/
theorem comment_short (hs : ∀ n, ¬ opener n <+: s) (hcr : 0x0D ∉ s) :
    comment false 0 (ascii "--") s = shortComment (ascii "--") s := by
  cases s with
  | nil => simp [comment, shortComment, firstLine, otherLines]
  | cons c s =>
    obtain ⟨hc, hrest⟩ : 0x0D ≠ c ∧ 0x0D ∉ s := by simpa using hcr
    by_cases hopen : c = 0x5B
    · subst hopen
      have hsigns := comment_signs (k := 0) (s := s) (fun m t ht => hs m ⟨t, by simp [ht, opener]⟩)
        hrest
      rw [comment_bracket, shortComment_cons (by simp)]
      exact hsigns
    · exact comment_unopened hc (inLongBracket_ne hopen 0) fun _ =>
        comment_closed (closed_first hopen 0) hrest

end

end Scan

/-! ## The tokens -/

open Scan

section
variable {n : Nat} {s : Bytes}

/-- **A long string**, from its opening bracket on: it is read up to the first closing bracket of
its level, and invalid if there is none. -/
theorem scan_longString (hcr : 0x0D ∉ s) : scan (opener n ++ s) =
    ofRead .longString (opener n ++ s)
      (readUntil (Lexer.endsWithLongBracket · n) (opener n) s) := by
  have hlead : scan (opener n ++ s) = longString true n (opener n) s := by
    cases n with
    | zero => rfl
    | succ n =>
      have hlevel := longString_level (k := 1) (s := s) n
      rw [Nat.add_comm 1 n] at hlevel
      rw [← hlevel]
      simp [opener, List.replicate_succ, scan, isSpace, lead]
  rw [hlead, longString_open hcr]

/-- Two dashes start a comment, whatever stands behind them. -/
theorem scan_comment : scan (ascii "--" ++ s) = comment false 0 (ascii "--") s := rfl

/-- **A long comment**, likewise, with the dashes in its text: it is read up to the first closing
bracket of its level, or invalid where there is none. -/
theorem scan_longComment (hcr : 0x0D ∉ s) : scan (ascii "--" ++ (opener n ++ s)) =
    ofRead .longComment (ascii "--" ++ opener n ++ s)
      (readUntil (Lexer.endsWithLongBracket · n) (ascii "--" ++ opener n) s) := by
  have hlevel := comment_level (k := 0) (s := s) n
  rw [Nat.zero_add] at hlevel
  have hopen : opener n ++ s = 0x5B :: (List.replicate n 0x3D ++ 0x5B :: s) := by simp [opener]
  rw [scan_comment, hopen, comment_bracket, ← comment_open hcr]
  exact hlevel

end

namespace Lexer

variable {σ : Type} {cs : CharSource σ} {src r s pre : Bytes} {self : Lexer σ} {n : Nat}

/-- The next token is the long bracket of level `n` that `pre` has opened before `s`: it is of the
kind `long` if the closing bracket occurs in `s`, with the text up to its first occurrence there,
and invalid otherwise. -/
structure LongBracket (cs : CharSource σ) (src : Bytes) (self : Lexer σ) (long : Token)
    (pre : Bytes) (n : Nat) (s : Bytes) : Prop where
  long_iff : (nextToken cs self).1.1 = long ↔ closer n <:+: s
  invalid : (nextToken cs self).1.1 ≠ long → (nextToken cs self).1.1 = .invalid
  text : ∀ front rest, First (closer n) s front rest →
    (nextToken cs self).2.tokenString = pre ++ (front ++ closer n) ∧
      Ready cs src rest (nextToken cs self).2

/-- What the scan reads is such a token: up to the first closing bracket of its level, or an invalid
one with all bytes left. -/
theorem Agrees.longBracket {long : Token} (hlong : long ≠ .invalid)
    (hpre : ∃ front, pre = front ++ [0x5B])
    (h : Agrees cs src ((nextToken cs self).1.1, (nextToken cs self).2)
      (ofRead long (pre ++ s) (readUntil (endsWithLongBracket · n) pre s))) :
    LongBracket cs src self long pre n s := by
  obtain ⟨front, rfl⟩ := hpre
  by_cases hin : closer n <:+: s
  · have hread {f rest : Bytes} (hfirst : First (closer n) s f rest) :
        readUntil (endsWithLongBracket · n) (front ++ [0x5B]) s =
          some (front ++ [0x5B] ++ (f ++ closer n), rest) :=
      readUntil_first (fun _ => endsWithLongBracket_iff) bracket_notMem (by simp [closer]) hfirst
    obtain ⟨f, rest, hfirst⟩ := exists_first hin
    have htok : (nextToken cs self).1.1 = long := by
      rw [hread hfirst] at h
      exact h.1
    refine ⟨iff_of_true htok hin, fun hne => absurd htok hne, fun f rest hfirst => ?_⟩
    rw [hread hfirst] at h
    exact h.2
  · rw [readUntil_absent (fun _ => endsWithLongBracket_iff) bracket_notMem hin] at h
    refine ⟨iff_of_false ?_ hin, fun _ => h.1, fun f rest hfirst => ?_⟩
    · exact fun htok => hlong (htok.symm.trans h.1)
    · exact absurd ⟨f, rest, hfirst.eq.symm⟩ hin

/-- **Long brackets are recognised exactly, at every level.** Before an opening bracket the lexer
reads a long string, up to the first closing bracket of its level. Before `--` and an opening
bracket it reads a long comment in the same way; before `--` and anything else, a comment that is
the rest of the line with its newline. -/
theorem longBrackets_exact (h : Ready cs src r self) (hcr : 0x0D ∉ r) :
    (∀ n s, r = opener n ++ s → LongBracket cs src self .longString (opener n) n s) ∧
      ∀ s, r = ascii "--" ++ s →
        (∀ n t, s = opener n ++ t →
          LongBracket cs src self .longComment (ascii "--" ++ opener n) n t) ∧
        ((∀ n, ¬ opener n <+: s) → (nextToken cs self).1.1 = .comment ∧
          (nextToken cs self).2.tokenString = ascii "--" ++ firstLine s ∧
          Ready cs src (otherLines s) (nextToken cs self).2) := by
  have hagrees := (nextToken_agrees h).1
  have hlast (n : Nat) : opener n = (0x5B :: List.replicate n 0x3D) ++ [0x5B] := rfl
  refine ⟨?_, ?_⟩
  · rintro n s rfl
    rw [scan_longString (fun hmem => hcr (List.mem_append_right _ hmem))] at hagrees
    exact hagrees.longBracket (by simp) ⟨_, hlast n⟩
  · rintro s rfl
    have hs : 0x0D ∉ s := fun hmem => hcr (List.mem_append_right _ hmem)
    refine ⟨?_, ?_⟩
    · rintro n t rfl
      rw [scan_longComment (fun hmem => hs (List.mem_append_right _ hmem))] at hagrees
      exact hagrees.longBracket (by simp)
        ⟨ascii "--" ++ (0x5B :: List.replicate n 0x3D), by rw [hlast, List.append_assoc]⟩
    · intro hshort
      rw [scan_comment, comment_short hshort hs] at hagrees
      exact hagrees

/-- The long string `[=[]]]=]`, whose content is a closing bracket of level 0. -/
theorem longBrackets_exact_example :
    LongBracket CharSource.ofBytes (ascii "[=[]]]=]") { source := ascii "[=[]]]=]" } .longString
      (opener 1) 1 (ascii "]]]=]") :=
  (longBrackets_exact (ready_ofBytes (ascii "[=[]]]=]"))
    (by decide)).1 1 (ascii "]]]=]") rfl

end Lexer

end Eltn
