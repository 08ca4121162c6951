import Eltn.Lexer.Brackets
import Eltn.Lexer.Slices

/-!
# Comments as units

A comment reads the same with and without carriage returns (`comment_filter`), so a complete comment
is one token before any bytes (`scan_complete`) if it is complete without them too. A comment that
the end of the input breaks off goes on with whatever is put there, up to the next newline
(`comment_unended`, `comment_behind`).
-/

namespace Eltn

open Occurs

/-- The bytes other than carriage returns. -/
def dropCR (s : Bytes) : Bytes := s.filter (· ≠ 0x0D)

/-- A complete comment: a short one with its newline, which opens no long bracket, or a long one up
to the first closing bracket of its level. -/
inductive CompleteComment : Bytes → Prop
  | short {body : Bytes} : 0x0A ∉ body → (∀ n, ¬ opener n <+: body) →
      CompleteComment (ascii "--" ++ (body ++ [0x0A]))
  | long {n : Nat} {content : Bytes} : First (closer n) (content ++ closer n) content [] →
      CompleteComment (ascii "--" ++ (opener n ++ (content ++ closer n)))

section
variable {r s t : Bytes} {c : UInt8}

/-- There is nothing to drop in front of nothing. -/
@[simp] theorem dropCR_nil : dropCR [] = [] := rfl

/-- The first byte is dropped if it is a carriage return. -/
theorem dropCR_cons (c : UInt8) (s : Bytes) :
    dropCR (c :: s) = if c = 0x0D then dropCR s else c :: dropCR s := by
  by_cases hc : c = 0x0D <;> simp [dropCR, hc]

/-- Carriage returns are dropped from each part of a text. -/
@[simp] theorem dropCR_append (s t : Bytes) : dropCR (s ++ t) = dropCR s ++ dropCR t :=
  List.filter_append s t

/-- No carriage return is left. -/
theorem notMem_dropCR (s : Bytes) : 0x0D ∉ dropCR s := by simp [dropCR]

/-- No byte is added. -/
theorem mem_dropCR (h : c ∈ dropCR s) : c ∈ s := (List.mem_filter.mp h).1

/-- Nothing is left of carriage returns alone, and of no other bytes. -/
theorem dropCR_eq_nil : dropCR s = [] ↔ ∀ c ∈ s, c = 0x0D := by
  simp [dropCR, List.filter_eq_nil_iff]

/-- Carriage returns are whitespace, so where they stand in front of a token they do not count. -/
theorem isSpace_of_cr (h : ∀ c ∈ s, c = 0x0D) : ∀ c ∈ s, isSpace c = true := by
  intro c hc
  rw [h c hc]
  rfl

end

namespace Scan

open Lexer

section
variable {isLong : Bool} {d d' : Int} {text r s : Bytes} {c : UInt8}

/-! ## Carriage returns -/

/-- A text that is no opening bracket has no level: the lexer gives up. -/
theorem longBracketDepth_false {s : Bytes} (h : longBracketDepth s d = (false, d')) : d' = -1 := by
  induction s generalizing d with
  | nil => cases h; rfl
  | cons c s ih =>
    rw [longBracketDepth] at h
    split at h
    · exact ih h
    split at h
    · cases h
    · cases h; rfl

/-- Where the bracket is not open, a second look at the same text finds the same. So a look that
changes nothing can be left out, as the lexer does at a carriage return. -/
theorem inLongBracket_again {pre : Bytes} (h : inLongBracket text pre d = (false, d')) :
    inLongBracket text pre d' = (false, d') := by
  unfold inLongBracket at h
  split at h
  · split at h
    · cases h
    · rw [longBracketDepth_false h, inLongBracket, if_neg (fun hneg => absurd hneg.1 (by decide))]
  · next hoff =>
    cases h
    rw [inLongBracket, if_neg hoff]

/-- The last look at the text read so far ended no comment and changed nothing. -/
def Idle (isLong : Bool) (d : Int) (text : Bytes) : Prop :=
  if isLong then endsWithLongBracket text d = false
  else inLongBracket text (ascii "--[") d = (false, d)

/-- Behind the two dashes the lexer has neither found a bracket nor given up. -/
theorem idle_dashes : Idle false 0 (ascii "--") := by
  rw [Idle, if_neg (by simp)]
  decide

/-- A carriage return is dropped from a comment, if the look at the text so far would find nothing
new. -/
theorem comment_cr (h : Idle isLong d text) :
    comment isLong d text (0x0D :: r) = comment isLong d text r := by
  cases isLong with
  | true =>
    have hend : endsWithLongBracket text d = false := h
    simp [comment, keep, hend]
  | false =>
    have hlook : inLongBracket text (ascii "--[") d = (false, d) := h
    simp [comment, keep, hlook]

/-- Another byte than a carriage return: the comment ends with it or the loop goes on idle, in a way
that does not depend on the bytes behind. A byte does one of three things: it is the newline that
ends a line, it completes the closing bracket of a long comment, or it is kept. -/
theorem comment_other (isLong : Bool) (d : Int) (text : Bytes) (hc : c ≠ 0x0D) : ∃ isLong' d',
    (isLong = true → isLong' = true ∧ d' = d) ∧
    (isLong = false → inLongBracket (text ++ [c]) (ascii "--[") d = (isLong', d')) ∧
    ((isLong' = false ∧ c = 0x0A ∧ ∀ r, comment isLong d text (c :: r) =
        ⟨.comment, text ++ [c], r⟩) ∨
      (isLong' = true ∧ ∀ r, comment isLong d text (c :: r) = ⟨.longComment, text ++ [c], r⟩) ∨
      (Idle isLong' d' (text ++ [c]) ∧ (isLong' = false → c ≠ 0x0A) ∧
        ∀ r, comment isLong d text (c :: r) = comment isLong' d' (text ++ [c]) r)) := by
  obtain ⟨isLong', d', hlook⟩ : ∃ isLong' d', (if isLong then (true, d)
      else inLongBracket (text ++ [c]) (ascii "--[") d) = (isLong', d') := ⟨_, _, rfl⟩
  have hstep (r : Bytes) : comment isLong d text (c :: r) =
      if !isLong' ∧ c = 0x0A then ⟨.comment, text ++ [c], r⟩
      else if isLong' ∧ endsWithLongBracket (text ++ [c]) d' then ⟨.longComment, text ++ [c], r⟩
      else comment isLong' d' (text ++ [c]) r := by
    rw [comment, keep, if_neg hc, hlook]
  refine ⟨isLong', d', ?_, ?_, ?_⟩
  · rintro rfl
    cases hlook
    exact ⟨rfl, rfl⟩
  · rintro rfl
    exact hlook
  by_cases hline : !isLong' ∧ c = 0x0A
  · exact .inl ⟨by simpa using hline.1, hline.2, fun r => by rw [hstep, if_pos hline]⟩
  by_cases hend : isLong' ∧ endsWithLongBracket (text ++ [c]) d'
  · exact .inr (.inl ⟨hend.1, fun r => by rw [hstep, if_neg hline, if_pos hend]⟩)
  refine .inr (.inr ⟨?_, ?_, fun r => by rw [hstep, if_neg hline, if_neg hend]⟩)
  · cases isLong' with
    | true => simpa [Idle] using hend
    | false =>
      cases isLong with
      | true => cases hlook
      | false => exact inLongBracket_again hlook
  · rintro rfl hlf
    exact hline ⟨rfl, hlf⟩

/-- **A comment reads the same without carriage returns**: the same token with the same text, and of
the bytes left all but these. -/
theorem comment_filter (h : Idle isLong d text) : comment isLong d text (dropCR r) =
    ⟨(comment isLong d text r).token, (comment isLong d text r).text,
      dropCR (comment isLong d text r).rest⟩ := by
  induction r generalizing isLong d text with
  | nil => cases isLong <;> rfl
  | cons c r ih =>
    rw [dropCR_cons]
    by_cases hc : c = 0x0D
    · rw [if_pos hc, hc, comment_cr h, ih h]
    rw [if_neg hc]
    obtain ⟨isLong', d', -, -, ⟨-, -, hstep⟩ | ⟨-, hstep⟩ | ⟨hidle, -, hstep⟩⟩ :=
      comment_other isLong d text hc
    · rw [hstep, hstep]
    · rw [hstep, hstep]
    · rw [hstep, hstep, ih hidle]

/-! ## Complete comments -/

/-- An opening bracket that starts a longer text is complete before a byte that cannot stand in it.
-/
theorem opener_prefix_append {n : Nat} (hne : ∀ b ∈ s.head?, b ≠ 0x5B ∧ b ≠ 0x3D)
    (h : opener n <+: r ++ s) : opener n <+: r := by
  obtain ⟨rest, hrest⟩ := h
  rcases List.append_eq_append_iff.mp hrest with ⟨gap, hr, -⟩ | ⟨gap, hopener, hs⟩
  · exact ⟨gap, hr.symm⟩
  · cases gap with
    | nil => exact ⟨[], by rw [hopener, List.append_nil, List.append_nil]⟩
    | cons b gap =>
      -- the bracket would end in `s`
      have hb : b ∈ opener n := by rw [hopener]; simp
      obtain ⟨hopen, hsign⟩ := hne b (by rw [hs]; rfl)
      simp only [opener, List.mem_cons, List.mem_append, List.mem_replicate, List.not_mem_nil,
        or_false] at hb
      rcases hb with rfl | ⟨-, rfl⟩ | rfl
      · exact absurd rfl hopen
      · exact absurd rfl hsign
      · exact absurd rfl hopen

/-- The first line of a text with a newline in it, and what stands behind. -/
theorem lines_append (h : 0x0A ∉ s) :
    firstLine (s ++ 0x0A :: r) = s ++ [0x0A] ∧ otherLines (s ++ 0x0A :: r) = r := by
  have hline : ∀ c ∈ s, decide (c ≠ 0x0A) = true := by
    intro c hc
    have hne : c ≠ 0x0A := fun heq => h (heq ▸ hc)
    simpa using hne
  rw [firstLine, otherLines, List.takeWhile_append_of_pos hline,
    List.dropWhile_append_of_pos hline]
  simp

/-- An opening bracket ends with the second `[`, behind its equals signs. -/
theorem opener_last (n : Nat) :
    ascii "--" ++ opener n = ascii "--" ++ (0x5B :: List.replicate n 0x3D) ++ [0x5B] := by
  simp [opener]

/-- The long comment read up to the first closing bracket. -/
theorem scan_closed {n : Nat} {t front rest : Bytes} (hcr : 0x0D ∉ t)
    (h : First (closer n) t front rest) : scan (ascii "--" ++ (opener n ++ t)) =
      ⟨.longComment, ascii "--" ++ (opener n ++ (front ++ closer n)), rest⟩ := by
  have hread : readUntil (endsWithLongBracket · n)
      (ascii "--" ++ (0x5B :: List.replicate n 0x3D) ++ [0x5B]) t =
      some (ascii "--" ++ (0x5B :: List.replicate n 0x3D) ++ [0x5B] ++ (front ++ closer n), rest) :=
    readUntil_first (fun _ => endsWithLongBracket_iff) bracket_notMem (by simp [closer]) h
  rw [scan_longComment hcr, opener_last, hread, ← opener_last, ofRead, List.append_assoc]

/-- Without a closing bracket there is no long comment. -/
theorem scan_unclosed {n : Nat} {t : Bytes} (hcr : 0x0D ∉ t) (h : ¬ closer n <:+: t) :
    (scan (ascii "--" ++ (opener n ++ t))).token = .invalid := by
  rw [scan_longComment hcr, opener_last,
    readUntil_absent (fun _ => endsWithLongBracket_iff) bracket_notMem h]
  rfl

/-- A complete comment without carriage returns is read as a whole, and whatever follows it is no
part of it. -/
theorem comment_whole (h : CompleteComment (ascii "--" ++ s)) (hcr : 0x0D ∉ s) :
    ∃ t, (t = .comment ∨ t = .longComment) ∧
      comment false 0 (ascii "--") s = ⟨t, ascii "--" ++ s, []⟩ ∧
      ∀ next, Follows t (ascii "--" ++ s) next := by
  generalize hv : ascii "--" ++ s = v at h
  cases h with
  | @short body hlf hopen =>
    obtain rfl := List.append_cancel_left hv
    refine ⟨.comment, .inl rfl, ?_, fun next => .inl (by simp)⟩
    have hshort : ∀ n, ¬ opener n <+: body ++ [0x0A] := fun n hpre =>
      hopen n (opener_prefix_append (by simp) hpre)
    obtain ⟨hfirst, hothers⟩ := lines_append (r := []) hlf
    rw [comment_short hshort hcr, shortComment, hfirst, hothers]
  | @long n content hfirst =>
    obtain rfl := List.append_cancel_left hv
    have hcontent : 0x0D ∉ content ++ closer n := fun hmem => hcr (List.mem_append_right _ hmem)
    exact ⟨.longComment, .inr rfl, scan_closed hcontent hfirst, fun _ => trivial⟩

/-- **A complete comment is one token**, whatever follows it. Carriage returns at its end are left
unread. -/
theorem scan_complete (h : CompleteComment (ascii "--" ++ dropCR s)) :
    ∃ t text crs, (t = .comment ∨ t = .longComment) ∧ (∀ c ∈ crs, c = 0x0D) ∧
      ∀ r, scan (ascii "--" ++ (s ++ r)) = ⟨t, text, crs ++ r⟩ := by
  obtain ⟨t, ht, hwhole, hfollow⟩ := comment_whole h (notMem_dropCR s)
  have hfilter := comment_filter (r := s) idle_dashes
  rw [hwhole] at hfilter
  obtain ⟨htok, htext, hrest⟩ := Scan.mk.inj hfilter
  have hvalid : (comment false 0 (ascii "--") s).token ≠ .invalid := by
    rw [← htok]
    rintro rfl
    rcases ht with ht | ht <;> cases ht
  obtain ⟨span, hs, -, -, hspan⟩ := comment_sliced (fun _ => by decide) hvalid
  refine ⟨t, ascii "--" ++ dropCR s, (comment false 0 (ascii "--") s).rest, ht,
    dropCR_eq_nil.mp hrest.symm, fun r => ?_⟩
  have hread := hspan ((comment false 0 (ascii "--") s).rest ++ r)
    (by rw [← htok, ← htext]; exact hfollow _)
  rw [← List.append_assoc, ← hs, ← htok, ← htext] at hread
  rw [scan_comment, hread]

/-- A comment that was read is complete, or all of the bytes left: a last line without a newline, in
which no long comment was opened. Carriage returns aside, which the loop drops, the bytes open a
long comment or not: a long one is read to its first closer, a short one to its newline. -/
theorem comment_read (h : (comment false 0 (ascii "--") s).token ≠ .invalid) :
    ∃ span, s = span ++ (comment false 0 (ascii "--") s).rest ∧
      (CompleteComment (ascii "--" ++ dropCR span) ∨
        0x0A ∉ s ∧ ∀ n, ¬ opener n <+: dropCR s) := by
  obtain ⟨span, hs, htext, -, -⟩ := comment_sliced (fun _ => by decide) h
  refine ⟨span, hs, ?_⟩
  have hcr := notMem_dropCR s
  have hfilter := comment_filter (r := s) idle_dashes
  rw [htext] at hfilter
  by_cases hopen : ∃ n, opener n <+: dropCR s
  · obtain ⟨n, t, ht⟩ := hopen
    have hcrt : 0x0D ∉ t := fun hmem => hcr (by rw [← ht]; exact List.mem_append_right _ hmem)
    by_cases hin : closer n <:+: t
    · obtain ⟨front, rest, hfirst⟩ := exists_first hin
      have hscan := scan_closed hcrt hfirst
      rw [scan_comment, ht, hfilter] at hscan
      have hspan : dropCR span = opener n ++ (front ++ closer n) :=
        List.append_cancel_left (Scan.mk.inj hscan).2.1
      left
      rw [hspan]
      refine .long ⟨by rw [List.append_nil], fun front' rest' heq => ?_⟩
      exact hfirst.first front' (rest' ++ rest) (by rw [hfirst.eq, heq, List.append_assoc])
    · have hscan := scan_unclosed hcrt hin
      rw [scan_comment, ht, hfilter] at hscan
      exact absurd hscan h
  · have hshort : ∀ n, ¬ opener n <+: dropCR s := fun n hn => hopen ⟨n, hn⟩
    by_cases hlf : 0x0A ∈ s
    · rw [comment_short hshort hcr] at hfilter
      have hspan : firstLine (dropCR s) = dropCR span :=
        List.append_cancel_left (Scan.mk.inj hfilter).2.1
      have hmem : 0x0A ∈ dropCR s := by simpa [dropCR] using hlf
      obtain ⟨body, tail, hsplit, hbody⟩ := List.eq_append_cons_of_mem hmem
      left
      rw [← hspan, hsplit, (lines_append hbody).1]
      refine .short hbody fun n hn => hshort n ?_
      rw [hsplit]
      exact hn.trans (List.prefix_append _ _)
    · exact .inr ⟨hlf, hshort⟩

/-! ## Comments that the end of the input breaks off -/

/-- A comment that has not opened a bracket: it never will, or it may be about to. -/
def Unopened (text : Bytes) (d : Int) : Prop :=
  Closed text d ∨ d = 0 ∧ (text = ascii "--" ∨ ∃ k, text = ascii "--[" ++ List.replicate k 0x3D)

/-- Only a bracket or an `=` sign keeps the bracket possible. -/
theorem Unopened.close (h : Unopened text d) (hopen : c ≠ 0x5B) (hsign : c ≠ 0x3D) :
    Closed (text ++ [c]) d := by
  rcases h with hclosed | ⟨rfl, rfl | ⟨k, rfl⟩⟩
  · obtain ⟨d', hlook, hclosed'⟩ := hclosed.step c
    rw [inLongBracket_ne hopen] at hlook
    cases hlook
    exact hclosed'
  · exact closed_first hopen 0
  · exact .inr (.inr ⟨k, c, [], by simp, hsign, by simpa using Ne.symm hopen⟩)

/-- A comment that has not opened a bracket, and whose look at one byte more finds none, still has
not. -/
theorem Unopened.step (h : Unopened text d)
    (hlook : inLongBracket (text ++ [c]) (ascii "--[") d = (false, d')) :
    Unopened (text ++ [c]) d' := by
  by_cases hboth : c ≠ 0x5B ∧ c ≠ 0x3D
  · rw [inLongBracket_ne hboth.1] at hlook
    cases hlook
    exact .inl (h.close hboth.1 hboth.2)
  rcases h with hclosed | ⟨rfl, rfl | ⟨k, rfl⟩⟩
  · obtain ⟨e, hlook', hclosed'⟩ := hclosed.step c
    rw [hlook] at hlook'
    cases hlook'
    exact .inl hclosed'
  · have hc : c = 0x5B ∨ c = 0x3D := by simpa [or_iff_not_imp_left] using hboth
    rcases hc with rfl | rfl
    · rw [inLongBracket_first] at hlook
      cases hlook
      exact .inr ⟨rfl, .inr ⟨0, rfl⟩⟩
    · rw [inLongBracket_ne (by simp)] at hlook
      cases hlook
      exact .inl (closed_first (by simp) 0)
  · have hc : c = 0x5B ∨ c = 0x3D := by simpa [or_iff_not_imp_left] using hboth
    rcases hc with rfl | rfl
    · rw [List.append_assoc, inLongBracket_opener bracketPrefix_comment] at hlook
      cases hlook
    · rw [inLongBracket_ne (by simp)] at hlook
      cases hlook
      exact .inr ⟨rfl, .inr ⟨k + 1, by rw [List.replicate_succ', List.append_assoc]⟩⟩

/-- A comment that has opened a bracket is no short one. -/
theorem comment_long_ne (d : Int) (text r : Bytes) : (comment true d text r).token ≠ .comment := by
  induction r generalizing text with
  | nil => simp [comment]
  | cons c r ih =>
    rw [comment, if_pos rfl, if_neg (by simp)]
    split
    · simp
    · exact ih _

/-- **The end of the input broke off the comment**: it goes on from where it was, not in a long
bracket. -/
theorem comment_unended (h : Unopened text d) (hidle : Idle false d text)
    (htok : (comment false d text s).token = .comment)
    (hlast : (comment false d text s).text.getLast? ≠ some 0x0A) :
    ∃ text' d', Unopened text' d' ∧ Idle false d' text' ∧
      ∀ r, comment false d text (s ++ r) = comment false d' text' r := by
  induction s generalizing d text with
  | nil => exact ⟨text, d, h, hidle, fun r => rfl⟩
  | cons c s ih =>
    by_cases hc : c = 0x0D
    · subst hc
      rw [comment_cr hidle] at htok hlast
      obtain ⟨text', d', h', hidle', hstep⟩ := ih h hidle htok hlast
      exact ⟨text', d', h', hidle', fun r => by rw [List.cons_append, comment_cr hidle, hstep]⟩
    obtain ⟨isLong', d', -, hlook, ⟨-, rfl, hstep⟩ | ⟨-, hstep⟩ | ⟨hidle', -, hstep⟩⟩ :=
      comment_other false d text hc
    · rw [hstep] at hlast
      exact absurd (by simp) hlast
    · rw [hstep] at htok
      cases htok
    · rw [hstep] at htok hlast
      cases isLong' with
      | true => exact absurd htok (comment_long_ne _ _ _)
      | false =>
        obtain ⟨text', e, h', hidle'', hstep'⟩ := ih (h.step (hlook rfl)) hidle' htok hlast
        exact ⟨text', e, h', hidle'', fun r => by rw [List.cons_append, hstep, hstep']⟩

/-- The first line goes on over a byte that is no newline. -/
theorem otherLines_cons (hc : c ≠ 0x0A) : otherLines (c :: r) = otherLines r := by
  simp [otherLines, hc]

/-- A byte behind which no long bracket is open ends the line or is part of it. -/
theorem comment_part (hc : c ≠ 0x0D)
    (hlook : inLongBracket (text ++ [c]) (ascii "--[") d = (false, d'))
    (hrest : ∃ text', comment false d' (text ++ [c]) r = ⟨.comment, text', otherLines r⟩) :
    ∃ text', comment false d text (c :: r) = ⟨.comment, text', otherLines (c :: r)⟩ := by
  rw [comment_step hc hlook]
  by_cases hlf : c = 0x0A
  · rw [if_pos (by simp [hlf]), hlf]
    exact ⟨_, rfl⟩
  · rw [if_neg (by simp [hlf]), if_neg (by simp), otherLines_cons hlf]
    exact hrest

/-- The rest of a short comment is the rest of its line. By induction on the bytes, none of which
opens a bracket any more. -/
theorem comment_line (h : Closed text d) (hidle : Idle false d text) (r : Bytes) :
    ∃ text', comment false d text r = ⟨.comment, text', otherLines r⟩ := by
  induction r generalizing d text with
  | nil => exact ⟨text, rfl⟩
  | cons c r ih =>
    by_cases hc : c = 0x0D
    · rw [hc, comment_cr hidle, otherLines_cons (by simp)]
      exact ih h hidle
    obtain ⟨e, hlook, hclosed⟩ := h.step c
    exact comment_part hc hlook (ih hclosed (inLongBracket_again hlook))

/-- What is put behind it belongs to it up to its newline. -/
theorem comment_behind (h : Unopened text d) (hidle : Idle false d text)
    (hr : r = [0x0D] ∨ ∃ c s, r = c :: s ∧ c ≠ 0x5B ∧ c ≠ 0x3D ∧ c ≠ 0x0D) :
    ∃ text', comment false d text r = ⟨.comment, text', otherLines r⟩ := by
  rcases hr with rfl | ⟨c, s, rfl, hopen, hsign, hcr⟩
  · exact ⟨text, comment_cr hidle⟩
  · have hlook : inLongBracket (text ++ [c]) (ascii "--[") d = (false, d) :=
      inLongBracket_ne hopen d
    exact comment_part hcr hlook (comment_line (h.close hopen hsign) hlook s)

end

end Scan

end Eltn
