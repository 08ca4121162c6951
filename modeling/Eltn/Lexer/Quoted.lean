import Eltn.Lexer.Spans
import Eltn.Unescape

/-!
# Where a quoted string ends

Two loops decide the end of a quoted string. The lexer stops at the first quote whose previous byte
is no backslash (`Guarded`); `ELTN_unescape_quoted_string` takes escapes off in pairs. They part
exactly when an escaped backslash stands before a quote (`QuoteAfterPair`): to the lexer the second
backslash guards the quote, to the unescaper it is used up. `string_token_ends_iff` is that
comparison for every token.
-/

namespace Eltn

/-! ## The two rules -/

/-- What the lexer keeps of a string with the quote `q` between its quotes, after the byte `prev`:
each `q` in it follows a backslash, and its end does not. -/
def Guarded (q : UInt8) : UInt8 → Bytes → Prop
  | prev, [] => prev ≠ 0x5C
  | prev, c :: body => (c = q → prev = 0x5C) ∧ Guarded q c body

/-- Reading the text from left to right as plain bytes, two-byte escapes and closed `\u{...}`, some
escape `\\` has the quote `q` right behind it; the flag says that an escape `\\` came last. -/
inductive QuoteAfterPair (q : UInt8) : Bool → Bytes → Prop
  | here {s : Bytes} : QuoteAfterPair q true (q :: s)
  | plain {b : Bool} {c : UInt8} {s : Bytes} : c ≠ 0x5C → QuoteAfterPair q false s →
      QuoteAfterPair q b (c :: s)
  | pair {b : Bool} {s : Bytes} : QuoteAfterPair q true s → QuoteAfterPair q b (0x5C :: 0x5C :: s)
  | escape {b : Bool} {d : UInt8} {s : Bytes} : d ≠ 0x5C → ¬ ClosedUnicode d s →
      QuoteAfterPair q false s → QuoteAfterPair q b (0x5C :: d :: s)
  | unicode {b : Bool} {d c : UInt8} {s t : Bytes} : ClosedUnicode d s →
      strchr s 0x7D = some (c :: t) → QuoteAfterPair q false t → QuoteAfterPair q b (0x5C :: d :: s)

section
variable {q prev c d : UInt8} {b : Bool} {w body s t out : Bytes}

/-- What is guarded stays so behind its first byte. -/
theorem Guarded.cons (h : Guarded q prev (c :: body)) : Guarded q c body := h.2

/-- The rule of the lexer is about one byte and the one before it. -/
theorem Guarded.drop (h : Guarded q prev (w ++ body)) : Guarded q (w.getLastD prev) body := by
  induction w generalizing prev with
  | nil => exact h
  | cons c w ih =>
    rw [List.getLastD_cons]
    exact ih h.cons

/-- A plain byte is read and forgotten. -/
theorem quoteAfterPair_plain (hc : c ≠ 0x5C) (hcq : c ≠ q) :
    QuoteAfterPair q b (c :: s) ↔ QuoteAfterPair q false s := by
  constructor
  · intro h
    cases h with
    | here => exact absurd rfl hcq
    | plain _ h => exact h
    | pair _ => exact absurd rfl hc
    | escape _ _ _ => exact absurd rfl hc
    | unicode _ _ _ => exact absurd rfl hc
  · exact .plain hc

/-- So are plain bytes. -/
theorem quoteAfterPair_plains (hw : ∀ c ∈ w, c ≠ 0x5C ∧ c ≠ q) :
    QuoteAfterPair q false (w ++ s) ↔ QuoteAfterPair q false s := by
  induction w with
  | nil => rfl
  | cons c w ih =>
    obtain ⟨hc, hw⟩ := List.forall_mem_cons.mp hw
    rw [List.cons_append, quoteAfterPair_plain hc.1 hc.2, ih hw]

/-- An escaped backslash is read and remembered. -/
theorem quoteAfterPair_pair (hq : q ≠ 0x5C) :
    QuoteAfterPair q b (0x5C :: 0x5C :: s) ↔ QuoteAfterPair q true s := by
  constructor
  · intro h
    cases h with
    | here => exact absurd rfl hq
    | plain hc _ => exact absurd rfl hc
    | pair h => exact h
    | escape hd _ _ => exact absurd rfl hd
    | unicode hd _ _ => exact absurd hd.1 (by simp)
  · exact .pair

/-- Any other escape of two bytes is read and forgets it. -/
theorem quoteAfterPair_escape (hq : q ≠ 0x5C) (hd : d ≠ 0x5C) (hu : ¬ ClosedUnicode d s) :
    QuoteAfterPair q b (0x5C :: d :: s) ↔ QuoteAfterPair q false s := by
  constructor
  · intro h
    cases h with
    | here => exact absurd rfl hq
    | plain hc _ => exact absurd rfl hc
    | pair _ => exact absurd rfl hd
    | escape _ _ h => exact h
    | unicode hu' _ _ => exact absurd hu' hu
  · exact .escape hd hu

/-- A closed `\u` escape is read up to its brace, and the bytes inside are no escapes of their own.
-/
theorem quoteAfterPair_unicode (hq : q ≠ 0x5C) (hu : ClosedUnicode d s)
    (ht : strchr s 0x7D = some (c :: t)) :
    QuoteAfterPair q b (0x5C :: d :: s) ↔ QuoteAfterPair q false t := by
  constructor
  · intro h
    cases h with
    | here => exact absurd rfl hq
    | plain hc _ => exact absurd rfl hc
    | pair _ => exact absurd hu.1 (by simp)
    | escape _ hu' _ => exact absurd hu hu'
    | unicode _ ht' h =>
      rw [ht] at ht'
      cases ht'
      exact h
  · exact .unicode hu ht

/-! ## The scan of the unescaper over a token -/

/-- The loop of the unescaper stops at the quote. -/
theorem unescapeLoop_quote (fuel : Nat) (s : Bytes) :
    unescapeLoop q fuel (q :: s) out = (q :: s, out) := by
  cases fuel with
  | zero => rfl
  | succ fuel =>
    rw [unescapeLoop, if_neg]
    simp

/-- A turn of the loop at a byte of the literal. -/
theorem unescapeLoop_cons (hc : c ≠ q) (fuel : Nat) :
    unescapeLoop q (fuel + 1) (c :: (body ++ [q, 0])) out =
      unescapeLoop q fuel (unescapeStep (c :: (body ++ [q, 0])) out).1
        (unescapeStep (c :: (body ++ [q, 0])) out).2 := by
  rw [unescapeLoop, if_pos]
  simpa using hc

/-- An escape leaves a shorter text `rest` behind a byte `prev`, which is a backslash only when the
pair `\\` has been taken off. A quote stands behind a pair in it where one did before. -/
theorem unescapeSwitch_turn (hq : q = 0x27 ∨ q = 0x22) (hg : Guarded q d body) (b : Bool)
    (out : Bytes) :
    ∃ prev rest, (unescapeSwitch (d :: (body ++ [q, 0])) out).1 = rest ++ [q, 0] ∧
      rest.length ≤ body.length ∧ Guarded q prev rest ∧
      (QuoteAfterPair q b (0x5C :: d :: (body ++ [q])) ↔
        QuoteAfterPair q (prev = 0x5C) (rest ++ [q])) := by
  have hqb : q ≠ 0x5C := quote_ne_backslash hq
  rcases em (ClosedUnicode d (body ++ [q])) with hu | hu
  · obtain ⟨w, rest, rfl, hclose, hptr⟩ := unescapeSwitch_unicode hq hu out
    have hlast : (w ++ [0x7D]).getLastD d = 0x7D := by rw [List.getLastD_concat]
    have hrest : Guarded q 0x7D rest := hlast ▸ Guarded.drop (by simpa using hg)
    refine ⟨0x7D, rest, hptr, ?_, hrest, ?_⟩
    · rw [List.length_append, List.length_cons]
      omega
    · rw [quoteAfterPair_unicode hqb hu hclose]
      simp
  · obtain ⟨w, rest, rfl, hw, hbs, hptr⟩ := unescapeSwitch_skip hq hu out
    refine ⟨w.getLastD d, rest, hptr, ?_, hg.drop, ?_⟩
    · rw [List.length_append]
      omega
    rcases eq_or_ne d 0x5C with rfl | hd
    · obtain rfl := hbs rfl
      rw [List.nil_append, quoteAfterPair_pair hqb]
      simp
    · have hlast : w.getLastD d ≠ 0x5C := by
        rcases List.eq_nil_or_concat w with rfl | ⟨w', c, rfl⟩
        · exact hd
        · rw [List.concat_eq_append, List.getLastD_concat]
          exact (hw c (by simp)).1
      rw [quoteAfterPair_escape hqb hd hu, List.append_assoc, quoteAfterPair_plains hw]
      simp only [hlast, decide_false]

/-- **One turn** of the loop, at a plain byte or an escape, moves the pointer to a rest that is
guarded again, and in which a quote behind `\\` is found where it was before. -/
theorem unescapeStep_turn (hq : q = 0x27 ∨ q = 0x22) (hcq : c ≠ q) (hg : Guarded q c body)
    (b : Bool) (out : Bytes) :
    ∃ prev rest, (unescapeStep (c :: (body ++ [q, 0])) out).1 = rest ++ [q, 0] ∧
      rest.length ≤ body.length ∧ Guarded q prev rest ∧
      (QuoteAfterPair q b (c :: (body ++ [q])) ↔
        QuoteAfterPair q (prev = 0x5C) (rest ++ [q])) := by
  rcases ne_or_eq c 0x5C with hc | rfl
  · refine ⟨c, body, ?_, le_refl _, hg, ?_⟩
    · have hstep : unescapeStep (c :: (body ++ [q, 0])) out = (body ++ [q, 0], out ++ [c]) :=
        if_pos hc
      rw [hstep]
    · rw [quoteAfterPair_plain hc hcq]
      simp only [hc, decide_false]
  · -- the last byte before the quote is no backslash, so the escape is whole
    rcases body with _ | ⟨d, body⟩
    · exact absurd rfl hg
    obtain ⟨prev, rest, hptr, hlen, hrest, hiff⟩ := unescapeSwitch_turn hq hg.cons b out
    exact ⟨prev, rest, hptr, Nat.le_succ_of_le hlen, hrest, hiff⟩

/-- The scan stops before the last quote and the terminator, unless a quote stands behind an escaped
backslash. `prev` is the byte before the pointer, a backslash only when the pair `\\` has just been
taken off. -/
theorem unescapeLoop_stops_iff (hq : q = 0x27 ∨ q = 0x22) {fuel : Nat}
    (hfuel : body.length < fuel) (hg : Guarded q prev body) :
    (unescapeLoop q fuel (body ++ [q, 0]) out).1.length = 2 ↔
      ¬ QuoteAfterPair q (prev = 0x5C) (body ++ [q]) := by
  induction fuel generalizing prev body out with
  | zero => exact absurd hfuel (Nat.not_lt_zero _)
  | succ fuel ih =>
    rcases body with _ | ⟨c, body⟩
    · have hprev : prev ≠ 0x5C := hg
      rw [List.nil_append, unescapeLoop_quote, List.nil_append]
      refine ⟨fun _ h => ?_, fun _ => rfl⟩
      simp only [hprev, decide_false] at h
      cases h with
      | plain _ h => cases h
    rw [List.length_cons] at hfuel
    rw [List.cons_append, List.cons_append]
    rcases eq_or_ne c q with rfl | hcq
    · -- the lexer read on behind this quote, so a backslash stands before it
      have hprev : prev = 0x5C := hg.1 rfl
      rw [unescapeLoop_quote]
      simp only [hprev, decide_true]
      constructor
      · intro h
        simp at h
      · exact fun h => absurd .here h
    · obtain ⟨prev', rest, hptr, hlen, hrest, hiff⟩ :=
        unescapeStep_turn hq hcq hg.cons (prev = 0x5C) out
      rw [unescapeLoop_cons hcq, hptr, ih (by omega) hrest, hiff]

end

/-- A text between quotes as the lexer keeps it: the scan over it stops at its last byte unless a
quote stands behind an escaped backslash. -/
theorem unescapeStop_iff {q : UInt8} {body : Bytes} (hq : q = 0x27 ∨ q = 0x22)
    (hg : Guarded q q body) :
    unescapeStop (q :: (body ++ [q])) + 1 = (q :: (body ++ [q])).length ↔
      ¬ QuoteAfterPair q false (body ++ [q]) := by
  have hqb : q ≠ 0x5C := quote_ne_backslash hq
  have hloop : unescapeQuotedString (q :: (body ++ [q])) =
      unescapeLoop q (body.length + 2) (body ++ [q, 0]) [] := by
    rcases hq with rfl | rfl <;> simp [unescapeQuotedString]
  have hiff : (unescapeLoop q (body.length + 2) (body ++ [q, 0]) []).1.length = 2 ↔
      ¬ QuoteAfterPair q (q = 0x5C) (body ++ [q]) :=
    unescapeLoop_stops_iff hq (by omega) hg
  rw [← hloop] at hiff
  simp only [hqb, decide_false] at hiff
  rw [← hiff, unescapeStop]
  simp only [List.length_cons, List.length_append, List.length_nil]
  omega

namespace Scan

open Lexer

/-- What the lexer keeps of a string is guarded: a quote in it follows a backslash, since the loop
stops at any other. -/
theorem quote_string (q : UInt8) (r : Bytes) : ∀ {prev : UInt8} {text : Bytes},
    (quote q prev text r).token = .string →
      ∃ body, (quote q prev text r).text = text ++ body ++ [q] ∧ Guarded q prev body := by
  induction r with
  | nil => exact nofun
  | cons c r ih =>
    intro prev text h
    rw [quote] at h ⊢
    split at h
    · next hc => rw [if_pos hc]; exact ih h
    next hcr =>
    rw [if_neg hcr]
    split at h
    · cases h
    next hlf =>
    rw [if_neg hlf]
    split at h
    · next hc =>
      rw [if_pos hc]
      exact ⟨[], by rw [hc.1, List.append_nil], hc.2⟩
    · next hc =>
      rw [if_neg hc]
      obtain ⟨body, htext, hg⟩ := ih h
      refine ⟨c :: body, by rw [htext]; simp, ?_, hg⟩
      intro hcq
      by_contra hprev
      exact hc ⟨hcq, hprev⟩

/-- A string token is a quote, the bytes kept after it and the same quote, each of which stands
behind a backslash but the last. -/
theorem lead_string {c : UInt8} {r : Bytes} (h : (lead c r).token = .string) :
    (c = 0x27 ∨ c = 0x22) ∧ ∃ body, (lead c r).text = c :: (body ++ [c]) ∧ Guarded c c body := by
  cases lead_cases c r with
  | squareOpen hr hlead =>
    rw [hlead r hr] at h
    cases h
  | longString hd hlead =>
    rw [hlead] at h
    exact absurd h (ne_of_mem_of_not_mem (longString_mem _ _ _ _) (by simp))
  | punctuation hp hlead =>
    rw [hlead] at h
    exact absurd h (ne_of_mem_of_not_mem (punctuation_mem hp).1 (by simp))
  | number hlead =>
    rw [hlead] at h
    exact absurd h (ne_of_mem_of_not_mem (numberToken_mem _) (by simp))
  | comment hc hlead =>
    rw [hlead] at h
    exact absurd h (ne_of_mem_of_not_mem (comment_mem _ _ _ _) (by simp))
  | minus hd hlead =>
    rw [hlead] at h
    exact absurd h (ne_of_mem_of_not_mem (numberToken_mem _) (by simp))
  | name hlead =>
    rw [hlead] at h
    exact absurd h (ne_of_mem_of_not_mem (nameToken_mem _) (by simp))
  | invalid hlead =>
    rw [hlead] at h
    cases h
  | quote hc hlead =>
    rw [hlead] at h ⊢
    obtain ⟨body, htext, hg⟩ := quote_string c r h
    exact ⟨hc, body, by simpa using htext, hg⟩

end Scan

namespace Lexer

variable {σ : Type} {cs : CharSource σ} {src : Bytes}

/-- After any number of calls the lexer stands before some list of bytes. -/
theorem Ready.after {r : Bytes} {l : Lexer σ} (h : Ready cs src r l) (k : Nat) :
    ∃ r, Ready cs src r (after cs l k) := by
  induction k generalizing r l with
  | zero => exact ⟨r, h⟩
  | succ k ih =>
    rw [after_succ]
    exact ih (nextToken_agrees h).1.2.2

/-- A string token in the lexer is a quote, the bytes kept after it and the same quote, of which no
other ends it. -/
theorem Ready.string {r : Bytes} {l : Lexer σ} (h : Ready cs src r l)
    (htok : (nextToken cs l).1.1 = .string) :
    ∃ q body, (q = 0x27 ∨ q = 0x22) ∧ (nextToken cs l).2.tokenString = q :: (body ++ [q]) ∧
      Guarded q q body := by
  obtain ⟨⟨htoken, hbuf, -⟩, -⟩ := nextToken_agrees h
  rw [htoken, scan] at htok
  rw [scan] at hbuf
  generalize r.dropWhile isSpace = s at htok hbuf
  cases s with
  | nil => cases htok
  | cons c s =>
    obtain ⟨hq, body, htext, hg⟩ := Scan.lead_string htok
    exact ⟨c, body, hq, hbuf.trans htext, hg⟩

/-- **The unescaper decodes a whole string token exactly when no quote stands behind an escaped
backslash.** For every source and every string token, the scan of `ELTN_unescape_quoted_string` over
the text of the token stops at its closing quote if and only if, read as bytes and escapes, no `\\`
in it has the token's own quote right behind it. There the lexer, which looks at one byte before a
quote, takes it for an escaped one, and the unescaper, which has read that byte as the end of an
escape, for the end. -/
theorem string_token_ends_iff (cs : CharSource σ) (s : σ) (hs : cs.Ok s) (k : Nat)
    (htok : (nextToken cs (after cs { source := s } k)).1.1 = .string) :
    unescapeStop (nextToken cs (after cs { source := s } k)).2.tokenString + 1 =
        (nextToken cs (after cs { source := s } k)).2.tokenString.length ↔
      ¬ QuoteAfterPair ((nextToken cs (after cs { source := s } k)).2.tokenString.headD 0) false
        (nextToken cs (after cs { source := s } k)).2.tokenString.tail := by
  obtain ⟨r, hready⟩ := (ready_new hs).after k
  obtain ⟨q, body, hq, htext, hg⟩ := hready.string htok
  rw [htext]
  exact unescapeStop_iff hq hg

/-- The source `"\\"; b = "x"`: its first token runs on to the second quote of the input, and the
unescaper stops at the first. -/
theorem string_token_overruns : ¬ ∀ (k : Nat),
    (nextToken CharSource.ofBytes (after CharSource.ofBytes
      { source := ascii "\"\\\\\"; b = \"x\"" } k)).1.1 = .string →
    unescapeStop (nextToken CharSource.ofBytes (after CharSource.ofBytes
        { source := ascii "\"\\\\\"; b = \"x\"" } k)).2.tokenString + 1 =
      (nextToken CharSource.ofBytes (after CharSource.ofBytes
        { source := ascii "\"\\\\\"; b = \"x\"" } k)).2.tokenString.length := by
  intro h
  exact absurd (h 0 (by decide)) (by decide)

/-- The source `"a\\n"`: an escaped backslash with no quote behind it, so the scan stops where the
token ends. -/
theorem string_token_ends_example :
    unescapeStop (nextToken CharSource.ofBytes (after CharSource.ofBytes
        { source := ascii "\"a\\\\n\"" } 0)).2.tokenString + 1 =
      (nextToken CharSource.ofBytes (after CharSource.ofBytes
        { source := ascii "\"a\\\\n\"" } 0)).2.tokenString.length ↔
    ¬ QuoteAfterPair ((nextToken CharSource.ofBytes (after CharSource.ofBytes
        { source := ascii "\"a\\\\n\"" } 0)).2.tokenString.headD 0) false
      (nextToken CharSource.ofBytes (after CharSource.ofBytes
        { source := ascii "\"a\\\\n\"" } 0)).2.tokenString.tail :=
  string_token_ends_iff CharSource.ofBytes (ascii "\"a\\\\n\"") trivial 0 (by decide)

end Lexer

end Eltn
