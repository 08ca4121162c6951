import Eltn.Lexer.Scan
import Mathlib.Data.List.TakeWhile
import Mathlib.Tactic.Common

/-!
# Where the tokens stand

Every byte of the input belongs to one token or is whitespace between two tokens: a scan cuts the
list it reads into the slice of its token, at most the newline that breaks off a quoted string, and
the rest (`Cuts`). What the first byte of a token makes of the bytes behind it is said once, in
`LeadCases`. Following the calls of `nextToken` with the offset of the next byte (`Tiling`) gives
the spans of all tokens, their texts and their positions.
-/

namespace Eltn

/-- The scan of `r` after `text` cuts `r` into the slice that makes up the rest of the token,
whitespace outside it and what it leaves; carriage returns are dropped from the text. It is a token
of the input and not its end. -/
def Cuts (text r : Bytes) (sc : Scan) : Prop :=
  (sc.token ≠ .eof ∧ sc.token ≠ .error) ∧ ∃ span gap, r = span ++ gap ++ sc.rest ∧
    sc.text = text ++ span.filter (· ≠ 0x0D) ∧ ∀ c ∈ gap, isSpace c = true

section
variable {text r : Bytes} {c : UInt8} {sc : Scan} {t : Token}

/-- A token that is complete cuts off nothing more. -/
theorem Cuts.done (h : t ≠ .eof ∧ t ≠ .error) : Cuts text r ⟨t, text, r⟩ :=
  ⟨h, [], [], rfl, by simp, by simp⟩

/-- A byte at the front of the list belongs to the token. -/
theorem Cuts.cons (h : Cuts (Scan.keep text c) r sc) : Cuts text (c :: r) sc := by
  obtain ⟨ht, span, gap, rfl, htext, hgap⟩ := h
  refine ⟨ht, c :: span, gap, rfl, ?_, hgap⟩
  rw [htext, Scan.keep]
  by_cases hc : c = 0x0D <;> simp [hc]

/-- A byte other than a carriage return at the front of the list belongs to the token. -/
theorem Cuts.cons_of_ne (hc : c ≠ 0x0D) (h : Cuts (text ++ [c]) r sc) : Cuts text (c :: r) sc :=
  Cuts.cons (by rwa [Scan.keep, if_neg hc])

end

namespace Scan

/-- A quoted string cuts its bytes into the slice up to the closing quote, or up to where it breaks
off, and the rest. -/
theorem quote_cuts (q : UInt8) (r : Bytes) : ∀ (prev : UInt8) (text : Bytes),
    Cuts text r (quote q prev text r) := by
  induction r with
  | nil => exact fun prev text => Cuts.done (by simp)
  | cons c r ih =>
    intro prev text
    rw [quote]
    split
    · next hc => exact Cuts.cons (by rw [keep, if_pos hc]; exact ih prev text)
    next hcr =>
    split
    · -- the newline that breaks off the string is read and belongs to no token
      next hc => exact ⟨by simp, [], [c], rfl, by simp, by simp [hc.1, isSpace]⟩
    split
    · exact Cuts.cons_of_ne hcr (Cuts.done (by simp))
    · exact Cuts.cons_of_ne hcr (ih c (text ++ [c]))

/-- A comment cuts its bytes behind its newline, behind its closing bracket or at the end of the
input. -/
theorem comment_cuts (r : Bytes) : ∀ (isLong : Bool) (depth : Int) (text : Bytes),
    Cuts text r (comment isLong depth text r) := by
  induction r with
  | nil => exact fun isLong depth text => Cuts.done (by cases isLong <;> simp)
  | cons c r ih =>
    intro isLong depth text
    rw [comment]
    refine Cuts.cons ?_
    generalize (if isLong then (true, depth) else _) = start
    split
    · exact Cuts.done (by simp)
    split
    · exact Cuts.done (by simp)
    · exact ih _ _ _

/-- A long string cuts its bytes behind its closing bracket, or where it is seen to have none. -/
theorem longString_cuts (r : Bytes) : ∀ (pastOpen : Bool) (depth : Int) (text : Bytes),
    Cuts text r (longString pastOpen depth text r) := by
  induction r with
  | nil => exact fun pastOpen depth text => Cuts.done (by simp)
  | cons c r ih =>
    intro pastOpen depth text
    rw [longString]
    refine Cuts.cons ?_
    generalize (if pastOpen then (true, depth) else _) = past
    split
    · exact Cuts.done (by simp)
    split
    · exact Cuts.done (by simp)
    · exact ih _ _ _

/-- A run of bytes of a class cuts them where the class ends. No carriage return is in the class, so
its text is the slice itself. -/
theorem run_cuts {p : UInt8 → Bool} {f : Bytes → Token} (hp : p 0x0D = false)
    (hf : ∀ w, f w ≠ .eof ∧ f w ≠ .error) (text r : Bytes) : Cuts text r (run p f text r) := by
  refine ⟨hf _, r.takeWhile p, [], by simp [run], ?_, by simp⟩
  have : (r.takeWhile p).filter (· ≠ 0x0D) = r.takeWhile p := by
    rw [List.filter_eq_self]
    intro c hc
    have hpc := List.mem_takeWhile_imp hc
    simp only [decide_eq_true_eq]
    rintro rfl
    rw [hp] at hpc
    cases hpc
  rw [this, run]

/-! ### Kinds -/

/-- A quoted string is a string or invalid. -/
theorem quote_mem (q prev : UInt8) (text r : Bytes) :
    (quote q prev text r).token ∈ [Token.string, .invalid] := by
  induction r generalizing prev text with
  | nil => simp [quote]
  | cons c r ih =>
    rw [quote]
    split
    · exact ih prev text
    split
    · simp
    split
    · simp
    · exact ih c _

/-- A long string is a long string or invalid. -/
theorem longString_mem (pastOpen : Bool) (depth : Int) (text r : Bytes) :
    (longString pastOpen depth text r).token ∈ [Token.longString, .invalid] := by
  induction r generalizing pastOpen depth text with
  | nil => simp [longString]
  | cons c r ih =>
    rw [longString]
    generalize (if pastOpen then (true, depth) else _) = past
    split
    · simp
    split
    · simp
    · exact ih _ _ _

/-- A comment is a short one, a long one or invalid. -/
theorem comment_mem (isLong : Bool) (depth : Int) (text r : Bytes) :
    (comment isLong depth text r).token ∈ [Token.comment, .longComment, .invalid] := by
  induction r generalizing isLong depth text with
  | nil => cases isLong <;> simp [comment]
  | cons c r ih =>
    rw [comment]
    generalize (if isLong then (true, depth) else _) = start
    split
    · simp
    split
    · simp
    · exact ih _ _ _

/-- A run that starts as a number does is a number or invalid. -/
theorem numberToken_mem (w : Bytes) : Lexer.numberToken w ∈ [Token.number, .invalid] := by
  rw [Lexer.numberToken]
  split <;> simp

/-- A run that starts as a name does is a name, one of the three words or invalid. -/
theorem nameToken_mem (w : Bytes) :
    Lexer.nameToken w ∈ [Token.booleanTrue, .booleanFalse, .nil, .invalid, .name] := by
  rw [Lexer.nameToken]
  repeat' split
  all_goals simp

/-- The tokens of one byte, none of which is a carriage return. -/
theorem punctuation_mem {c : UInt8} {t : Token} (h : Lexer.punctuation c = some t) :
    t ∈ [Token.squareClose, .curlyOpen, .curlyClose, .equals, .comma, .semicolon] ∧
      c ≠ 0x0D := by
  unfold Lexer.punctuation at h
  repeat' split at h
  all_goals first | (cases h; subst c; exact ⟨by simp, by simp⟩) | cases h

/-- No kind of a list is the end of the input or an error. -/
theorem ne_of_kinds {t : Token} {kinds : List Token} (h : t ∈ kinds)
    (hkinds : .eof ∉ kinds ∧ .error ∉ kinds) : t ≠ .eof ∧ t ≠ .error :=
  ⟨ne_of_mem_of_not_mem h hkinds.1, ne_of_mem_of_not_mem h hkinds.2⟩

/-- Such a run is never taken for the end of the input. -/
theorem numberToken_ne (w : Bytes) :
    Lexer.numberToken w ≠ .eof ∧ Lexer.numberToken w ≠ .error :=
  ne_of_kinds (numberToken_mem w) (by simp)

/-- Nor is a run of name bytes. -/
theorem nameToken_ne (w : Bytes) : Lexer.nameToken w ≠ .eof ∧ Lexer.nameToken w ≠ .error :=
  ne_of_kinds (nameToken_mem w) (by simp)

/-! ### The first byte -/

/-- What the first byte of a token makes of the bytes behind it: one case for each part of the
`switch`, with the function that reads on there. -/
inductive LeadCases (c : UInt8) : Bytes → Prop where
  | squareOpen {r : Bytes} (hr : r.head? ≠ some 0x5B ∧ r.head? ≠ some 0x3D)
    (h : ∀ s, s.head? ≠ some 0x5B ∧ s.head? ≠ some 0x3D → lead c s = ⟨.squareOpen, [c], s⟩) :
    LeadCases c r
  | longString {d : UInt8} {r : Bytes} (hd : d = 0x5B ∨ d = 0x3D)
    (h : ∀ s, lead c (d :: s) = longString (d = 0x5B) 0 [c, d] s) : LeadCases c (d :: r)
  | punctuation {r : Bytes} {t : Token} (hp : Lexer.punctuation c = some t)
    (h : ∀ s, lead c s = ⟨t, [c], s⟩) : LeadCases c r
  | number {r : Bytes} (h : ∀ s, lead c s = run isNumberPart Lexer.numberToken [c] s) :
    LeadCases c r
  | comment {r : Bytes} (hc : c = 0x2D)
    (h : ∀ s, lead c (0x2D :: s) = comment false 0 [c, 0x2D] s) : LeadCases c (0x2D :: r)
  | minus {d : UInt8} {r : Bytes} (hd : isDigit d ∨ d = 0x2E)
    (h : ∀ s, lead c (d :: s) = run isNumberPart Lexer.numberToken [c, d] s) : LeadCases c (d :: r)
  | quote {r : Bytes} (hc : c = 0x27 ∨ c = 0x22) (h : ∀ s, lead c s = quote c c [c] s) :
    LeadCases c r
  | name {r : Bytes} (h : ∀ s, lead c s = run isNamePart Lexer.nameToken [c] s) : LeadCases c r
  | invalid {r : Bytes} (h : lead c r = ⟨.invalid, [c], r⟩) : LeadCases c r

/-- What `[` makes of the bytes behind it: a long string if `[` or `=` follows, a bracket otherwise.
-/
theorem lead_square (r : Bytes) : LeadCases 0x5B r := by
  have halone (s : Bytes) (hs : s.head? ≠ some 0x5B ∧ s.head? ≠ some 0x3D) :
      lead 0x5B s = ⟨.squareOpen, [0x5B], s⟩ := by
    cases s with
    | nil => rfl
    | cons d s =>
      have hd : ¬ (d = 0x5B ∨ d = 0x3D) := by simpa [not_or] using hs
      simp only [lead, if_true, if_neg hd]
  cases r with
  | nil => exact .squareOpen ⟨by simp, by simp⟩ halone
  | cons d r =>
    rcases Decidable.em (d = 0x5B ∨ d = 0x3D) with hd | hd
    · exact .longString hd fun s => by simp only [lead, if_true, if_pos hd]
    · exact .squareOpen (by simpa [not_or] using hd) halone

/-- What `-` makes of them: a comment if `-` follows, a number if a digit or a point follows, an
invalid token otherwise. -/
theorem lead_minus (r : Bytes) : LeadCases 0x2D r := by
  cases r with
  | nil => exact .invalid rfl
  | cons d r =>
    rcases eq_or_ne d 0x2D with rfl | hdash
    · exact .comment rfl fun s => rfl
    rcases Decidable.em (isDigit d ∨ d = 0x2E) with hdigit | hdigit
    · refine .minus hdigit fun s => ?_
      show (if d = 0x2D then _ else if isDigit d ∨ d = 0x2E then _ else _) = _
      rw [if_neg hdash, if_pos hdigit]
    · refine .invalid ?_
      show (if d = 0x2D then _ else if isDigit d ∨ d = 0x2E then _ else _) = _
      rw [if_neg hdash, if_neg hdigit]

/-- **The cases of the `switch`.** What follows about tokens goes through these cases, not through
the tests of the source one by one. -/
theorem lead_cases (c : UInt8) (r : Bytes) : LeadCases c r := by
  rcases eq_or_ne c 0x5B with rfl | hsquare
  · exact lead_square r
  rcases eq_or_ne c 0x2D with rfl | hminus
  · exact lead_minus r
  cases hp : Lexer.punctuation c with
  | some t => exact .punctuation hp fun s => by simp only [lead, if_neg hsquare, hp]
  | none =>
    have hlead (s : Bytes) : lead c s =
        if isDigit c ∨ c = 0x2E then run isNumberPart Lexer.numberToken [c] s
        else if c = 0x27 ∨ c = 0x22 then Scan.quote c c [c] s
        else if isNameStart c then run isNamePart Lexer.nameToken [c] s
        else ⟨.invalid, [c], s⟩ := by
      simp only [lead, if_neg hsquare, hp, if_neg hminus]
    split at hlead
    · exact .number hlead
    split at hlead
    · next hquote => exact .quote hquote hlead
    split at hlead
    · exact .name hlead
    · exact .invalid (hlead r)

/-- Whatever the first byte is, the token cuts the bytes behind it in two: those of its span, whose
text is that without carriage returns, and those left. -/
theorem lead_cuts (c : UInt8) (r : Bytes) : Cuts [c] r (lead c r) := by
  have hd : ∀ d : UInt8, d = 0x5B ∨ d = 0x3D ∨ d = 0x2D ∨ isDigit d = true ∨ d = 0x2E →
      d ≠ 0x0D := by
    rintro d h rfl
    revert h
    decide
  cases lead_cases c r with
  | squareOpen hr h => rw [h r hr]; exact Cuts.done ⟨nofun, nofun⟩
  | @longString d r hopen h =>
    rw [h]
    exact Cuts.cons_of_ne (hd d (hopen.imp_right .inl)) (longString_cuts r _ _ _)
  | punctuation hp h => rw [h]; exact Cuts.done (ne_of_kinds (punctuation_mem hp).1 (by simp))
  | number h => rw [h]; exact run_cuts rfl numberToken_ne [c] r
  | @comment r hc h =>
    rw [h]
    exact Cuts.cons_of_ne (hd 0x2D (.inr (.inr (.inl rfl)))) (comment_cuts r _ _ _)
  | @minus d r hdigit h =>
    rw [h]
    exact Cuts.cons_of_ne (hd d (.inr (.inr (.inr hdigit)))) (run_cuts rfl numberToken_ne [c, d] r)
  | quote hc h => rw [h]; exact quote_cuts c r c [c]
  | name h => rw [h]; exact run_cuts rfl nameToken_ne [c] r
  | invalid h => rw [h]; exact Cuts.done ⟨nofun, nofun⟩

end Scan

/-- The end of the input is reported where whitespace only is left. -/
theorem scan_eq_eof {r : Bytes} (h : r.dropWhile isSpace = []) : scan r = ⟨.eof, [], []⟩ := by
  rw [scan, h]

/-- A token's slice is not empty and starts after the whitespace. No whitespace starts a token, so
its first byte is kept. -/
theorem scan_cuts {r : Bytes} (h : r.dropWhile isSpace ≠ []) :
    ((scan r).token ≠ .eof ∧ (scan r).token ≠ .error) ∧ ∃ span gap, span ≠ [] ∧
      r.dropWhile isSpace = span ++ gap ++ (scan r).rest ∧
      (scan r).text = span.filter (· ≠ 0x0D) ∧ ∀ c ∈ gap, isSpace c = true := by
  have hhd := List.head_dropWhile_not isSpace h
  rw [scan]
  generalize r.dropWhile isSpace = s at h hhd
  cases s with
  | nil => exact absurd rfl h
  | cons c s =>
    have hc : isSpace c = false := hhd
    obtain ⟨ht, span, gap, hs, htext, hgap⟩ := Scan.lead_cuts c s
    have hcr : c ≠ 0x0D := by rintro rfl; cases hc
    exact ⟨ht, c :: span, gap, nofun, congrArg (c :: ·) hs, by simpa [hcr] using htext, hgap⟩

namespace Lexer

variable {σ : Type} {cs : CharSource σ} {src : Bytes}

/-- Calls are counted from the first. -/
theorem after_succ (l : Lexer σ) (n : Nat) :
    after cs l (n + 1) = after cs (nextToken cs l).2 n := by
  rw [after, Function.iterate_succ_apply, after]

/-- The next token of `l` has the span `u`: its text is that slice of the source without carriage
returns, and its position the one of the first byte of the slice. -/
def TokenAt (cs : CharSource σ) (src : Bytes) (l : Lexer σ) (u : Nat × Nat) : Prop :=
  u.1 < u.2 ∧ u.2 ≤ src.length ∧ (nextToken cs l).1.1 ≠ .eof ∧
    (nextToken cs l).2.tokenString = ((src.drop u.1).take (u.2 - u.1)).filter (· ≠ 0x0D) ∧
    (nextToken cs l).1.2 = (lineAfter (src.take u.1), columnAfter (src.take u.1))

/-- The tokens from the lexer state `l` on, which stands before the byte at `off`, have the spans
`spans`, with whitespace between them and the end of the input after them. -/
structure Tiling (cs : CharSource σ) (src : Bytes) (off : Nat) (l : Lexer σ)
    (spans : List (Nat × Nat)) : Prop where
  length_le : spans.length ≤ src.length - off
  sorted : spans.Pairwise (fun u v => u.2 ≤ v.1)
  ge : ∀ u ∈ spans, off ≤ u.1
  token : ∀ k (hk : k < spans.length), TokenAt cs src (after cs l k) spans[k]
  space : ∀ i (hi : i < src.length), off ≤ i → (∀ u ∈ spans, ¬ (u.1 ≤ i ∧ i < u.2)) →
    isSpace src[i] = true
  eof : ∀ k, spans.length ≤ k →
    (nextToken cs (after cs l k)).1 = (.eof, lineAfter src, columnAfter src)

/-- At the end of the input every call reports it. -/
theorem Ready.eof {r : Bytes} {l : Lexer σ} (hlen : src.length < 2 ^ 31)
    (hr : r.dropWhile isSpace = []) (h : Ready cs src r l) :
    (nextToken cs l).1 = (.eof, lineAfter src, columnAfter src) ∧
      Ready cs src [] (nextToken cs l).2 := by
  obtain ⟨⟨htok, -, hready⟩, hpos⟩ := nextToken_agrees h
  obtain ⟨pre, hsrc, hlc⟩ := hpos hlen
  rw [hr, List.append_nil] at hsrc
  rw [scan_eq_eof hr] at htok hready
  exact ⟨Prod.ext htok (hsrc ▸ hlc), hready⟩

/-- At the end of the source every call gives the end of the input, at the position behind the last
byte. -/
theorem Ready.after_eof {l : Lexer σ} (hlen : src.length < 2 ^ 31) (h : Ready cs src [] l) :
    ∀ k, (nextToken cs (after cs l k)).1 = (.eof, lineAfter src, columnAfter src) := by
  intro k
  induction k generalizing l with
  | zero => exact (h.eof hlen rfl).1
  | succ k ih =>
    rw [after_succ]
    exact ih (h.eof hlen rfl).2

/-- No token is left where there is only whitespace, and the calls report the end for good. -/
theorem Tiling.nil {pre r : Bytes} {l : Lexer σ} (hlen : (pre ++ r).length < 2 ^ 31)
    (hr : r.dropWhile isSpace = []) (h : Ready cs (pre ++ r) r l) :
    Tiling cs (pre ++ r) pre.length l [] where
  length_le := Nat.zero_le _
  sorted := .nil
  ge := by simp
  token := by simp
  space i hi hoff _ := by
    rw [List.getElem_append_right hoff]
    exact List.dropWhile_eq_nil_iff.mp hr _ (List.getElem_mem _)
  eof k _ := by
    obtain ⟨heof, hready⟩ := h.eof hlen hr
    cases k with
    | zero => exact heof
    | succ k =>
      rw [after_succ]
      exact hready.after_eof hlen k

/-- One token in front of the others: its span stands behind whitespace, and the tiling goes on
behind the whitespace that follows it. Field by field, the index of a call and that of a byte being
one of the first token or one of the others. -/
theorem Tiling.cons {pre ws span gap rest : Bytes} {l : Lexer σ} {spans : List (Nat × Nat)}
    (hws : ∀ c ∈ ws, isSpace c = true) (hgap : ∀ c ∈ gap, isSpace c = true) (hne : span ≠ [])
    (hsrc : src = pre ++ ws ++ span ++ gap ++ rest)
    (htok : TokenAt cs src l ((pre ++ ws).length, (pre ++ ws ++ span).length))
    (h : Tiling cs src (pre ++ ws ++ span ++ gap).length (nextToken cs l).2 spans) :
    Tiling cs src pre.length l (((pre ++ ws).length, (pre ++ ws ++ span).length) :: spans) where
  length_le := by
    have := h.length_le
    have hspan := List.length_pos_iff.mpr hne
    have hl := congrArg List.length hsrc
    simp only [List.length_append, List.length_cons] at *
    omega
  sorted := by
    refine List.pairwise_cons.mpr ⟨fun u hu => ?_, h.sorted⟩
    have := h.ge u hu
    simp only [List.length_append] at *
    omega
  ge := by
    intro u hu
    rcases List.mem_cons.mp hu with rfl | hu
    · simp
    · have := h.ge u hu
      simp only [List.length_append] at this
      omega
  token := by
    intro k hk
    cases k with
    | zero => exact htok
    | succ k =>
      rw [after_succ]
      exact h.token k (by simpa using hk)
  space := by
    intro i hi hoff hout
    have hfst := hout _ List.mem_cons_self
    by_cases hrest : (pre ++ ws ++ span ++ gap).length ≤ i
    · exact h.space i hi hrest fun u hu => hout u (List.mem_cons_of_mem _ hu)
    · subst hsrc
      simp only [List.append_assoc, List.length_append, not_and, not_lt, not_le] at hfst hrest ⊢
      rw [List.getElem_append_right hoff]
      by_cases hlow : i < pre.length + ws.length
      · rw [List.getElem_append_left (by omega)]
        exact hws _ (List.getElem_mem _)
      · have := hfst (by omega)
        rw [List.getElem_append_right (by omega), List.getElem_append_right (by omega),
          List.getElem_append_left (by omega)]
        exact hgap _ (List.getElem_mem _)
  eof k hk := by
    cases k with
    | zero => cases hk
    | succ k =>
      rw [after_succ]
      exact h.eof k (by simpa using hk)

/-- **The calls tile what is left of the source.** By strong induction on what is left: a token
takes at least one byte, and the calls behind it tile the rest. The span is cut out of the source by
`scan_cuts`, and its position is the one of `nextToken_agrees`. -/
theorem Ready.tiling (hlen : src.length < 2 ^ 31) (n : Nat) : ∀ (pre : Bytes) {r : Bytes}
    {l : Lexer σ}, r.length ≤ n → src = pre ++ r → Ready cs src r l →
    ∃ spans, Tiling cs src pre.length l spans := by
  induction n with
  | zero =>
    intro pre r l hn hsrc h
    have hr : r = [] := List.eq_nil_of_length_eq_zero (Nat.le_zero.mp hn)
    subst hr hsrc
    exact ⟨[], .nil hlen rfl h⟩
  | succ n ih =>
    intro pre r l hn hsrc h
    by_cases hr : r.dropWhile isSpace = []
    · subst hsrc
      exact ⟨[], .nil hlen hr h⟩
    obtain ⟨⟨heof, -⟩, span, gap, hne, hcut, htext, hgap⟩ := scan_cuts hr
    obtain ⟨⟨htok, hbuf, hready⟩, hpos⟩ := nextToken_agrees h
    obtain ⟨pre', hpre', hlc⟩ := hpos hlen
    have hws : ∀ c ∈ r.takeWhile isSpace, isSpace c = true := fun c => List.mem_takeWhile_imp
    have hdrop : pre ++ r.takeWhile isSpace ++ r.dropWhile isSpace = src := by
      rw [List.append_assoc, List.takeWhile_append_dropWhile, hsrc]
    have hrlen : r.length = (r.takeWhile isSpace).length + (r.dropWhile isSpace).length := by
      rw [← List.length_append, List.takeWhile_append_dropWhile]
    have hpre : pre ++ r.takeWhile isSpace = pre' :=
      List.append_cancel_right (hdrop.trans hpre')
    generalize r.takeWhile isSpace = ws at hws hdrop hrlen hpre
    have hsrc' : src = pre ++ ws ++ (span ++ (gap ++ (scan r).rest)) := by
      rw [← hdrop, hcut, List.append_assoc span]
    obtain ⟨spans, htiling⟩ := ih (pre ++ ws ++ span ++ gap) (r := (scan r).rest) (by
      have := List.length_pos_iff.mpr hne
      rw [hcut] at hrlen
      simp only [List.length_append] at *
      omega) (by simpa using hsrc') hready
    have hslice : (src.drop (pre ++ ws).length).take
        ((pre ++ ws ++ span).length - (pre ++ ws).length) = span := by
      rw [hsrc', List.drop_left, List.length_append, Nat.add_sub_cancel_left,
        List.take_left]
    have hbefore : src.take (pre ++ ws).length = pre' := by
      rw [hsrc', List.take_left, hpre]
    refine ⟨_, Tiling.cons hws hgap hne (by simpa using hsrc') ⟨?_, ?_, ?_, ?_, ?_⟩ htiling⟩
    · have := List.length_pos_iff.mpr hne
      simpa using this
    · rw [hsrc']
      simp only [List.length_append]
      omega
    · rw [htok]
      exact heof
    · rw [tokenString, hbuf, htext, hslice]
    · rw [hlc, hbefore]

/-- **Every byte is in one token or is whitespace between tokens.** From a new lexer on any source
of fewer than 2³¹ bytes, `ELTN_Lexer_next_token` delivers the tokens of increasing, disjoint,
non-empty spans, each with the text of its slice less the carriage returns and the line and column
of its first byte; then it reports the end of the input, at its end, for good. -/
theorem nextToken_tiles (cs : CharSource σ) (s : σ) (hs : cs.Ok s)
    (hlen : (cs.bytes s).length < 2 ^ 31) :
    ∃ spans : List (Nat × Nat), spans.length ≤ (cs.bytes s).length ∧
      spans.Pairwise (fun u v => u.2 ≤ v.1) ∧
      (∀ k (hk : k < spans.length),
        TokenAt cs (cs.bytes s) (after cs { source := s } k) spans[k]) ∧
      (∀ i (hi : i < (cs.bytes s).length), (∀ u ∈ spans, ¬ (u.1 ≤ i ∧ i < u.2)) →
        isSpace (cs.bytes s)[i] = true) ∧
      ∀ k, spans.length ≤ k → (nextToken cs (after cs { source := s } k)).1 =
        (.eof, lineAfter (cs.bytes s), columnAfter (cs.bytes s)) := by
  obtain ⟨spans, h⟩ := Ready.tiling hlen _ [] le_rfl rfl (ready_new hs)
  exact ⟨spans, h.length_le, h.sorted, h.token, fun i hi => h.space i hi (Nat.zero_le i), h.eof⟩

/-- The source `a =` followed by a newline and `"b`: a name, an equals sign, and an invalid token
for the string that is broken off. -/
theorem nextToken_tiles_example :
    ∃ spans : List (Nat × Nat), spans.length ≤ (ascii "a =\n\"b").length ∧
      spans.Pairwise (fun u v => u.2 ≤ v.1) ∧
      (∀ k (hk : k < spans.length), TokenAt CharSource.ofBytes (ascii "a =\n\"b")
        (after CharSource.ofBytes { source := ascii "a =\n\"b" } k) spans[k]) ∧
      (∀ i (hi : i < (ascii "a =\n\"b").length), (∀ u ∈ spans, ¬ (u.1 ≤ i ∧ i < u.2)) →
        isSpace (ascii "a =\n\"b")[i] = true) ∧
      ∀ k, spans.length ≤ k →
        (nextToken CharSource.ofBytes
          (after CharSource.ofBytes { source := ascii "a =\n\"b" } k)).1 =
        (.eof, lineAfter (ascii "a =\n\"b"), columnAfter (ascii "a =\n\"b")) :=
  nextToken_tiles CharSource.ofBytes (ascii "a =\n\"b") trivial (by decide)

end Lexer

end Eltn
