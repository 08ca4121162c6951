import Eltn.Lexer.Names
import Eltn.Lexer.Spans

/-!
# What a token is read from

A token that is not invalid is read from a slice of the source, and the lexer reads it from that
slice again before any bytes that do not prolong it (`Sliced`, `scan_sliced`). Its text is the slice
without carriage returns, also where they end no line: `text_normalized_iff` says when this is all
that normalizing newlines would do.
-/

namespace Eltn

/-- What may follow a token of the kind `t` with this text: nothing that prolongs it. A short
comment without its newline is followed by nothing at all. -/
def Follows (t : Token) (text : Bytes) (next : Option UInt8) : Prop :=
  match t with
  | .number => next.any isNumberPart = false
  | .name | .booleanTrue | .booleanFalse | .nil => next.any isNamePart = false
  | .squareOpen => next ≠ some 0x5B ∧ next ≠ some 0x3D
  | .comment => text.getLast? = some 0x0A ∨ next = none
  | _ => True

/-- The scan `f` behind `text` reads the rest of its token from a slice at the front of `r`, and
reads it from that slice before any bytes that may follow, as those left do. -/
def Sliced (f : Bytes → Scan) (text r : Bytes) : Prop :=
  ∃ span, r = span ++ (f r).rest ∧ (f r).text = text ++ span.filter (· ≠ 0x0D) ∧
    Follows (f r).token (f r).text (f r).rest.head? ∧
      ∀ rest, Follows (f r).token (f r).text rest.head? →
        f (span ++ rest) = ⟨(f r).token, (f r).text, rest⟩

section
variable {f g : Bytes → Scan} {text r : Bytes} {c q prev : UInt8} {t : Token}

/-- A token that is complete is read from nothing more. -/
theorem Sliced.done (h : ∀ next, Follows t text next) : Sliced (fun r => ⟨t, text, r⟩) text r :=
  ⟨[], rfl, by simp, h _, fun _ _ => rfl⟩

/-- One byte read before the others. -/
theorem Sliced.cons (hstep : ∀ r, f (c :: r) = g r) (h : Sliced g (Scan.keep text c) r) :
    Sliced f text (c :: r) := by
  obtain ⟨span, hr, htext, hnext, hfollow⟩ := h
  refine ⟨c :: span, ?_, ?_, by rwa [hstep], fun rest hrest => ?_⟩
  · rw [hstep, List.cons_append, ← hr]
  · rw [hstep, htext, Scan.keep]
    by_cases hc : c = 0x0D <;> simp [hc]
  · rw [hstep] at hrest ⊢
    rw [List.cons_append, hstep, hfollow rest hrest]

/-- One byte other than a carriage return before the others. -/
theorem Sliced.cons_of_ne (hc : c ≠ 0x0D) (hstep : ∀ r, f (c :: r) = g r)
    (h : Sliced g (text ++ [c]) r) : Sliced f text (c :: r) :=
  Sliced.cons hstep (by rwa [Scan.keep, if_neg hc])

namespace Scan

open Lexer

/-- A quoted string is read from its slice, whatever follows, as its quote ends it. By induction on
the bytes: each is dropped, or kept, or it is the closing quote. -/
theorem quote_sliced (h : (quote q prev text r).token ≠ .invalid) :
    Sliced (quote q prev text) text r := by
  induction r generalizing prev text with
  | nil => exact absurd rfl h
  | cons c r ih =>
    rw [quote] at h
    split at h
    · next hcr =>
      refine Sliced.cons (fun r => by rw [quote, if_pos hcr]) ?_
      rw [keep, if_pos hcr]
      exact ih h
    next hcr =>
    split at h
    · exact absurd rfl h
    next hlf =>
    split at h
    · next hclose =>
      exact Sliced.cons_of_ne hcr (fun r => by rw [quote, if_neg hcr, if_neg hlf, if_pos hclose])
        (Sliced.done (t := .string) fun _ => trivial)
    · next hopen =>
      exact Sliced.cons_of_ne hcr (fun r => by rw [quote, if_neg hcr, if_neg hlf, if_neg hopen])
        (ih h)

/-- A comment, of which no line has been read yet if it is not long, is read from its slice before
all bytes that may follow it. By induction on the bytes: a comment ends at a newline, at its closing
bracket or, when it is short, at the end of the input, where nothing may follow. -/
theorem comment_sliced {isLong : Bool} {depth : Int}
    (hline : isLong = false → text.getLast? ≠ some 0x0A)
    (h : (comment isLong depth text r).token ≠ .invalid) :
    Sliced (comment isLong depth text) text r := by
  induction r generalizing isLong depth text with
  | nil =>
    cases isLong with
    | true => exact absurd rfl h
    | false =>
      refine ⟨[], rfl, by simp [comment], .inr rfl, fun rest hrest => ?_⟩
      rcases hrest with hlast | hnil
      · exact absurd hlast (hline rfl)
      · rw [List.head?_eq_none_iff.mp hnil]
        rfl
  | cons c r ih =>
    generalize hstart : (if isLong then (true, depth)
      else inLongBracket (keep text c) (ascii "--[") depth) = start
    have hstep (r : Bytes) : comment isLong depth text (c :: r) =
        if !start.1 ∧ c = 0x0A then ⟨.comment, keep text c, r⟩
        else if start.1 ∧ endsWithLongBracket (keep text c) start.2 then
          ⟨.longComment, keep text c, r⟩
        else comment start.1 start.2 (keep text c) r := by
      rw [comment, hstart]
    rw [hstep] at h
    by_cases hshort : !start.1 ∧ c = 0x0A
    · refine Sliced.cons (fun r => by rw [hstep, if_pos hshort])
        (Sliced.done (t := .comment) fun next => .inl ?_)
      simp [keep, hshort.2]
    by_cases hclose : start.1 ∧ endsWithLongBracket (keep text c) start.2
    · exact Sliced.cons (fun r => by rw [hstep, if_neg hshort, if_pos hclose])
        (Sliced.done (t := .longComment) fun _ => trivial)
    refine Sliced.cons (fun r => by rw [hstep, if_neg hshort, if_neg hclose]) (ih ?_ ?_)
    · intro hfalse
      have hc : c ≠ 0x0A := fun hc => hshort ⟨by simp [hfalse], hc⟩
      have hlong : isLong = false := by
        cases isLong with
        | true => cases hstart; cases hfalse
        | false => rfl
      rw [keep]
      split
      · exact hline hlong
      · simpa using hc
    · rwa [if_neg hshort, if_neg hclose] at h

/-- A long string is read from its slice, whatever follows, as its closing bracket ends it. By
induction on the bytes, with the state of the brackets that the loop carries. -/
theorem longString_sliced {pastOpen : Bool} {depth : Int}
    (h : (longString pastOpen depth text r).token ≠ .invalid) :
    Sliced (longString pastOpen depth text) text r := by
  induction r generalizing pastOpen depth text with
  | nil => exact absurd rfl h
  | cons c r ih =>
    generalize hpast : (if pastOpen then (true, depth)
      else inLongBracket (keep text c) (ascii "[") depth) = past
    have hstep (r : Bytes) : longString pastOpen depth text (c :: r) =
        if !past.1 ∧ (c ≠ 0x3D ∨ past.2 < 0) then ⟨.invalid, keep text c, r⟩
        else if past.1 ∧ endsWithLongBracket (keep text c) past.2 then
          ⟨.longString, keep text c, r⟩
        else longString past.1 past.2 (keep text c) r := by
      rw [longString, hpast]
    rw [hstep] at h
    split at h
    · exact absurd rfl h
    next hopen =>
    split at h
    · next hclose =>
      exact Sliced.cons (fun r => by rw [hstep, if_neg hopen, if_pos hclose])
        (Sliced.done (t := .longString) fun _ => trivial)
    · next hclose =>
      exact Sliced.cons (fun r => by rw [hstep, if_neg hopen, if_neg hclose]) (ih h)

/-- A run is read from its slice before any byte that is not of its class; `hfollow` says that such
bytes are those that may follow. -/
theorem run_sliced {p : UInt8 → Bool} {kind : Bytes → Token} (hcr : p 0x0D = false)
    (hfollow : ∀ next, Follows (kind (text ++ r.takeWhile p)) (text ++ r.takeWhile p) next ↔
      next.any p = false) : Sliced (run p kind text) text r := by
  refine ⟨r.takeWhile p, by simp [run], ?_, (hfollow _).mpr ?_, fun rest hrest => ?_⟩
  · have hkept : (r.takeWhile p).filter (· ≠ 0x0D) = r.takeWhile p := by
      rw [List.filter_eq_self]
      intro c hc
      have hpc := List.mem_takeWhile_imp hc
      simp only [decide_eq_true_eq]
      rintro rfl
      rw [hcr] at hpc
      cases hpc
    rw [hkept, run]
  · have hstop := List.head?_dropWhile_not p r
    rw [run]
    split at hstop
    · next c hc => simpa [hc] using hstop
    · next hnone => simp [hnone]
  · obtain ⟨htake, hdrop⟩ := takeWhile_run (w := r.takeWhile p)
      (fun c => List.mem_takeWhile_imp) ((hfollow _).mp hrest)
    simp only [run, htake, hdrop]

/-- A number token may be followed by anything that does not go on with a number. -/
theorem follows_number {w : Bytes} (h : numberToken w ≠ .invalid) (next : Option UInt8) :
    Follows (numberToken w) w next ↔ next.any isNumberPart = false := by
  rw [numberToken] at h ⊢
  split
  · rfl
  · next hnot => exact absurd (if_neg hnot) h

/-- A name, or one of the three words, may be followed by anything that does not go on with a name.
-/
theorem follows_name {w : Bytes} (h : nameToken w ≠ .invalid) (next : Option UInt8) :
    Follows (nameToken w) w next ↔ next.any isNamePart = false := by
  unfold nameToken at h ⊢
  split
  · rfl
  next htrue =>
  split
  · rfl
  next hfalse =>
  split
  · rfl
  next hnil =>
  split
  · next hkeyword =>
    rw [if_neg htrue, if_neg hfalse, if_neg hnil, if_pos hkeyword] at h
    exact absurd rfl h
  · rfl

/-- A token of one byte may be followed by anything. -/
theorem follows_punctuation {text : Bytes} (h : punctuation c = some t) (next : Option UInt8) :
    Follows t text next := by
  unfold punctuation at h
  repeat' split at h
  all_goals first | (cases h; trivial) | cases h

/-- The bytes behind a first byte are read from their slice, whichever case of the `switch` it is.
Each case hands its slice on to the loop that read it; a bracket alone is decided by the byte behind
it. -/
theorem lead_sliced (h : (lead c r).token ≠ .invalid) : Sliced (lead c) [c] r := by
  cases lead_cases c r with
  | squareOpen hr hlead =>
    rw [Sliced, hlead r hr]
    exact ⟨[], rfl, rfl, hr, hlead⟩
  | @longString d r hd hlead =>
    have hcr : d ≠ 0x0D := by rcases hd with rfl | rfl <;> simp
    rw [hlead] at h
    exact Sliced.cons_of_ne hcr hlead (longString_sliced h)
  | punctuation hp hlead =>
    rw [funext hlead]
    exact Sliced.done (follows_punctuation hp)
  | number hlead =>
    rw [hlead] at h
    rw [funext hlead]
    exact run_sliced rfl (follows_number h)
  | comment hc hlead =>
    rw [hlead] at h
    exact Sliced.cons_of_ne (by simp) hlead (comment_sliced (by simp) h)
  | @minus d r hd hlead =>
    have hcr : d ≠ 0x0D := by rintro rfl; simp [isDigit] at hd
    rw [hlead] at h
    exact Sliced.cons_of_ne hcr hlead (run_sliced rfl (follows_number h))
  | quote hc hlead =>
    rw [hlead] at h
    rw [funext hlead]
    exact quote_sliced h
  | name hlead =>
    rw [hlead] at h
    rw [funext hlead]
    exact run_sliced rfl (follows_name h)
  | invalid hlead => exact absurd (congrArg Scan.token hlead) h

end Scan

/-- **A token that is not invalid is read from a slice.** The slice stands behind the whitespace and
starts with no whitespace, and behind any other whitespace, before any bytes that do not prolong it,
the same token is read from it. -/
theorem scan_sliced (hr : r.dropWhile isSpace ≠ []) (h : (scan r).token ≠ .invalid) :
    ∃ c span, isSpace c = false ∧ r.dropWhile isSpace = c :: span ++ (scan r).rest ∧
      (scan r).text = (c :: span).filter (· ≠ 0x0D) ∧
      Follows (scan r).token (scan r).text (scan r).rest.head? ∧
      ∀ sp rest, (∀ b ∈ sp, isSpace b = true) →
        Follows (scan r).token (scan r).text rest.head? →
        scan (sp ++ (c :: span ++ rest)) = ⟨(scan r).token, (scan r).text, rest⟩ := by
  have hhead := List.head_dropWhile_not isSpace hr
  rw [scan] at h ⊢
  generalize r.dropWhile isSpace = s at hr hhead h ⊢
  cases s with
  | nil => exact absurd rfl hr
  | cons c s =>
    have hc : isSpace c = false := hhead
    have hcr : c ≠ 0x0D := by rintro rfl; cases hc
    obtain ⟨span, hs, htext, hnext, hfollow⟩ := Scan.lead_sliced h
    refine ⟨c, span, hc, congrArg (c :: ·) hs, by simpa [hcr] using htext, hnext,
      fun sp rest hsp hrest => ?_⟩
    rw [scan_append hsp, scan, List.cons_append, List.dropWhile_cons, if_neg (by simp [hc])]
    exact hfollow rest hrest

end

/-! ## Newlines -/

/-- The text with its newlines normalized: each `"\r\n"` becomes `"\n"`, and a carriage return
elsewhere stays. -/
def normalizeNewlines : Bytes → Bytes
  | [] => []
  | c :: r =>
    if c = 0x0D ∧ r.head? = some 0x0A then normalizeNewlines r else c :: normalizeNewlines r

/-- Every carriage return ends a line together with the newline behind it. -/
def EndsLines (s : Bytes) : Prop := ∀ pre r, s = pre ++ 0x0D :: r → r.head? = some 0x0A

/-- Every carriage return of a text ends a line if the first byte does so and every one behind it
does. -/
theorem endsLines_cons {c : UInt8} {r : Bytes} :
    EndsLines (c :: r) ↔ (c = 0x0D → r.head? = some 0x0A) ∧ EndsLines r := by
  refine ⟨fun h => ⟨?_, fun pre s hs => h (c :: pre) s (by rw [hs]; rfl)⟩, fun h pre s hs => ?_⟩
  · rintro rfl
    exact h [] r rfl
  · cases pre with
    | nil =>
      cases hs
      exact h.1 rfl
    | cons b pre =>
      cases hs
      exact h.2 pre s rfl

/-- Dropping all carriage returns normalizes the newlines iff each of them ends a line, since any
other is lost. -/
theorem filter_eq_normalizeNewlines (s : Bytes) :
    s.filter (· ≠ 0x0D) = normalizeNewlines s ↔ EndsLines s := by
  induction s with
  | nil => simp [normalizeNewlines, EndsLines]
  | cons c r ih =>
    rw [endsLines_cons, ← ih, normalizeNewlines]
    by_cases hc : c = 0x0D
    · subst hc
      by_cases hlf : r.head? = some 0x0A
      · simp [hlf]
      · rw [if_neg (by simp [hlf])]
        refine iff_of_false (fun heq => ?_) (by simp [hlf])
        have hmem : (0x0D : UInt8) ∈ (0x0D :: r).filter (· ≠ 0x0D) := by
          rw [heq]
          exact List.mem_cons_self
        simp at hmem
    · simp [hc]

namespace Lexer

variable {σ : Type} {cs : CharSource σ} {src r : Bytes} {self : Lexer σ}

/-- The next token of the lexer, which stands before the bytes `r`, is read from `slice`: that is
what the lexer reads behind the whitespace. -/
def ReadFrom (cs : CharSource σ) (src r : Bytes) (self : Lexer σ) (slice : Bytes) : Prop :=
  ∃ sp rest, r = sp ++ (slice ++ rest) ∧ (∀ c ∈ sp, isSpace c = true) ∧ slice ≠ [] ∧
    slice.head?.any isSpace = false ∧ Ready cs src rest (nextToken cs self).2

/-- What the lexer stands before is all there is left to read. So what is read next is determined by
the state of the lexer. -/
theorem Ready.unique {r r' : Bytes} (h : Ready cs src r self) (h' : Ready cs src r' self) :
    r = r' := by
  obtain ⟨-, pre, -, hat⟩ := h
  obtain ⟨-, pre', -, hat'⟩ := h'
  have hhead : r.head? = r'.head? := hat.curr_eq.symm.trans hat'.curr_eq
  have htail : r.tail = r'.tail := hat.bytes_eq.symm.trans hat'.bytes_eq
  cases r with
  | nil => exact (List.head?_eq_none_iff.mp hhead.symm).symm
  | cons c r =>
    cases r' with
    | nil => cases hhead
    | cons c' r' =>
      cases hhead
      exact congrArg (c :: ·) htail

/-- The slice is determined by where the token is in the source and what is left behind it. -/
theorem ReadFrom.unique {slice slice' : Bytes} (h : ReadFrom cs src r self slice)
    (h' : ReadFrom cs src r self slice') : slice = slice' := by
  obtain ⟨sp, rest, rfl, hsp, hne, hhead, hready⟩ := h
  obtain ⟨sp', rest', heq, hsp', hne', hhead', hready'⟩ := h'
  obtain rfl := hready.unique hready'
  have hdrop {sp slice : Bytes} (hsp : ∀ c ∈ sp, isSpace c = true) (hne : slice ≠ [])
      (hhead : slice.head?.any isSpace = false) :
      (sp ++ (slice ++ rest)).dropWhile isSpace = slice ++ rest := by
    rw [List.dropWhile_append_of_pos hsp]
    cases slice with
    | nil => exact absurd rfl hne
    | cons c slice => simp_all
  have hslice := congrArg (List.dropWhile isSpace) heq
  rw [hdrop hsp hne hhead, hdrop hsp' hne' hhead'] at hslice
  exact List.append_cancel_right hslice

/-- A string or a comment. -/
def isText : Token → Bool
  | .string | .longString | .comment | .longComment => true
  | _ => false

/-- **When the text of a token is its slice with normalized newlines.** Every string, long string,
comment and long comment is read from one slice of the source; its text is that slice with each
`"\r\n"` replaced by `"\n"` iff every carriage return in the slice has a newline behind it. The
lexer drops every carriage return. -/
theorem text_normalized_iff (h : Ready cs src r self)
    (hkind : isText (nextToken cs self).1.1 = true) :
    ∃ slice, (∀ slice', ReadFrom cs src r self slice' ↔ slice' = slice) ∧
      ((nextToken cs self).2.tokenString = normalizeNewlines slice ↔ EndsLines slice) := by
  obtain ⟨⟨htok, htext, hready⟩, -⟩ := nextToken_agrees h
  dsimp only at htok htext hready
  have hr : r.dropWhile isSpace ≠ [] := by
    intro hnil
    rw [htok, scan_eq_eof hnil] at hkind
    cases hkind
  have hvalid : (scan r).token ≠ .invalid := by
    intro hinvalid
    rw [htok, hinvalid] at hkind
    cases hkind
  obtain ⟨c, span, hc, hcut, hslice, -, -⟩ := scan_sliced hr hvalid
  have hread : ReadFrom cs src r self (c :: span) := by
    refine ⟨r.takeWhile isSpace, (scan r).rest, ?_, fun b => List.mem_takeWhile_imp, nofun,
      by simp [hc], hready⟩
    rw [← hcut, List.takeWhile_append_dropWhile]
  refine ⟨c :: span, fun slice' => ⟨fun h' => h'.unique hread, fun heq => heq ▸ hread⟩, ?_⟩
  rw [tokenString, htext, hslice]
  exact filter_eq_normalizeNewlines _

/-- The comment `--a` with the newline `"\r\n"`. -/
theorem text_normalized_example :
    ∃ slice, (∀ slice', ReadFrom CharSource.ofBytes (ascii "--a\r\n") (ascii "--a\r\n")
        { source := ascii "--a\r\n" } slice' ↔ slice' = slice) ∧
      ((nextToken CharSource.ofBytes { source := ascii "--a\r\n" }).2.tokenString =
        normalizeNewlines slice ↔ EndsLines slice) :=
  text_normalized_iff (ready_ofBytes (ascii "--a\r\n")) (by decide)

/-- The string `"a\rb"` loses its carriage return. -/
theorem text_normalized_fails :
    (nextToken CharSource.ofBytes { source := ascii "\"a\rb\"" }).1.1 = .string ∧
      ReadFrom CharSource.ofBytes (ascii "\"a\rb\"") (ascii "\"a\rb\"")
        { source := ascii "\"a\rb\"" } (ascii "\"a\rb\"") ∧
      (nextToken CharSource.ofBytes { source := ascii "\"a\rb\"" }).2.tokenString ≠
        normalizeNewlines (ascii "\"a\rb\"") :=
  ⟨by decide, ⟨[], [], rfl, nofun, nofun, rfl, (nextToken_agrees (ready_ofBytes _)).1.2.2⟩,
    by decide⟩

end Lexer

end Eltn
