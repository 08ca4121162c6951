import Eltn.Lexer.Comments
import Eltn.Lexer.Room
import Eltn.Lexer.Tokens

/-!
# What stands between tokens

Whitespace and complete comments between two tokens change nothing but the comments that are read.
Tokens that were read before some bytes are read before any other bytes that do not prolong the last
of them (`Reads.insert`), so what is inserted matters in two places only: behind a number, which
takes the dashes of a comment for more of the number, and behind a comment that the end of the input
breaks off (`insertion_unchanged`).
-/

namespace Eltn

open Scan Lexer

/-- The kinds and texts of the tokens other than comments. -/
def significant (xs : List Lexeme) : List (Token × Bytes) :=
  (xs.filter (!·.isComment)).map fun x => (x.token, x.text)

/-- What is significant is taken one token at a time. -/
theorem significant_cons (x : Lexeme) (xs : List Lexeme) :
    significant (x :: xs) = significant [x] ++ significant xs := by
  rw [significant, significant, significant, ← List.map_append, ← List.filter_append]
  rfl

/-- Whether a token is significant, and what it says, is a matter of its kind and text, not of its
position. -/
theorem significant_congr {x y : Lexeme} (htok : x.token = y.token) (htext : x.text = y.text) :
    significant [x] = significant [y] := by
  simp only [significant, List.filter_cons, Lexeme.isComment, htok]
  split
  · rw [List.map_cons, List.map_cons, htok, htext]
  · rfl

/-- Whitespace and comments; at the end a short comment may lack its newline. Carriage returns
inside a comment do not count. -/
inductive Blank : Bytes → Prop
  | nil : Blank []
  | space {c : UInt8} {r : Bytes} : isSpace c = true → Blank r → Blank (c :: r)
  | comment {s r : Bytes} : CompleteComment (ascii "--" ++ dropCR s) → Blank r →
      Blank (ascii "--" ++ (s ++ r))
  | line {s : Bytes} : 0x0A ∉ s → (∀ n, ¬ opener n <+: dropCR s) → Blank (ascii "--" ++ s)

/-- One whitespace byte or one complete comment. -/
def Insignificant (v : Bytes) : Prop :=
  (∃ c, isSpace c = true ∧ v = [c]) ∨ CompleteComment v

namespace Scan

/-- The significant tokens of some bytes. -/
def tokens (r : Bytes) : List (Token × Bytes) := significant (lexemesUpTo [] r.length r)

section
variable {c : UInt8} {r s sp : Bytes} {t : Token} {text : Bytes}

/-- There are no tokens where the first scan finds the end of the input. -/
theorem tokens_eof (h : (scan r).token = .eof) : tokens r = [] := by
  rw [tokens, lexemesUpTo_eof _ _ h]
  rfl

/-- The tokens are the first one, if it is significant, and those of the bytes behind it. -/
theorem tokens_eq (h : (scan r).token ≠ .eof) : tokens r =
    significant [Scan.lexeme [] r] ++ tokens (scan r).rest := by
  rcases scan_rest r with ⟨hscan, -⟩ | ⟨-, hlt⟩
  · exact absurd (by rw [hscan]) h
  · obtain ⟨n, hn⟩ : ∃ n, r.length = n + 1 := ⟨r.length - 1, by omega⟩
    rw [tokens, hn, lexemesUpTo, if_neg h, lexemesUpTo_eq [] n (by omega) le_rfl, tokens,
      significant_cons]

/-- A comment is not significant: the tokens behind it are all there are. -/
theorem tokens_comment (h : (scan r).token = .comment ∨ (scan r).token = .longComment) :
    tokens r = tokens (scan r).rest := by
  have heof : (scan r).token ≠ .eof := by
    intro heof
    rw [heof] at h
    simp at h
  have hcomment : (Scan.lexeme [] r).isComment = true := by
    simpa [Lexeme.isComment, Scan.lexeme] using h
  rw [tokens_eq heof, significant]
  simp [hcomment]

/-- A token that is no comment stands in front of those behind it. -/
theorem tokens_other (heof : (scan r).token ≠ .eof)
    (h : ¬ ((scan r).token = .comment ∨ (scan r).token = .longComment)) :
    tokens r = ((scan r).token, (scan r).text) :: tokens (scan r).rest := by
  have hcomment : (Scan.lexeme [] r).isComment = false := by
    simpa [Lexeme.isComment, Scan.lexeme] using h
  rw [tokens_eq heof, significant, List.filter_cons, hcomment]
  simp [Scan.lexeme]

/-- Where a comment is scanned, the tokens are those behind it. -/
theorem tokens_of_comment (h : scan r = ⟨t, text, s⟩) (ht : t = .comment ∨ t = .longComment) :
    tokens r = tokens s := by
  rw [tokens_comment (by rw [h]; exact ht), h]

/-- Whitespace in front of tokens is not significant. -/
theorem tokens_spaces (hsp : ∀ c ∈ sp, isSpace c = true) : tokens (sp ++ r) = tokens r := by
  by_cases heof : (scan r).token = .eof
  · rw [tokens_eof heof, tokens_eof (by rwa [scan_append hsp])]
  · have hlexeme : significant [Scan.lexeme [] (sp ++ r)] = significant [Scan.lexeme [] r] :=
      significant_congr (congrArg Scan.token (scan_append hsp))
        (congrArg Scan.text (scan_append hsp))
    rw [tokens_eq heof, tokens_eq (by rwa [scan_append hsp]), hlexeme, scan_append hsp]

/-! ## First bytes -/

/-- The kinds that may start with a minus sign. -/
def Signed (t : Token) : Prop := t = .number ∨ t = .comment ∨ t = .longComment

/-- Among some kinds there is one that a minus sign can start only if the number or a comment is
among them. -/
theorem Signed.of_mem {kinds : List Token} (h : Signed t) (hmem : t ∈ kinds) :
    .number ∈ kinds ∨ .comment ∈ kinds ∨ .longComment ∈ kinds := by
  rcases h with rfl | rfl | rfl
  · exact .inl hmem
  · exact .inr (.inl hmem)
  · exact .inr (.inr hmem)

/-- A number is one run of bytes, the first one or two of which are told from the rest; a comment
starts with two dashes. -/
theorem lead_signed (h : Signed (lead c r).token) :
    (∃ pre s, c :: r = c :: pre ++ s ∧
      ∀ s, lead c (pre ++ s) = run isNumberPart numberToken (c :: pre) s) ∨
    c = 0x2D ∧ ∃ s, r = 0x2D :: s := by
  cases lead_cases c r with
  | number hlead => exact .inl ⟨[], r, rfl, hlead⟩
  | @minus d r hd hlead => exact .inl ⟨[d], r, rfl, hlead⟩
  | @comment r hc hlead => exact .inr ⟨hc, r, rfl⟩
  | squareOpen hr hlead =>
    rw [hlead r hr] at h
    simp [Signed] at h
  | longString hd hlead =>
    rw [hlead] at h
    exact absurd (h.of_mem (longString_mem _ _ _ _)) (by simp)
  | punctuation hp hlead =>
    rw [hlead] at h
    exact absurd (h.of_mem (punctuation_mem hp).1) (by simp)
  | quote hc hlead =>
    rw [hlead] at h
    exact absurd (h.of_mem (quote_mem _ _ _ _)) (by simp)
  | name hlead =>
    rw [hlead] at h
    exact absurd (h.of_mem (nameToken_mem _)) (by simp)
  | invalid hlead =>
    rw [hlead] at h
    simp [Signed] at h

/-! ## Whitespace and comments -/

/-- A run that starts as a number does is no comment. -/
theorem numberToken_not_comment (w : Bytes) :
    numberToken w ≠ .comment ∧ numberToken w ≠ .longComment :=
  ⟨ne_of_mem_of_not_mem (numberToken_mem w) (by simp),
    ne_of_mem_of_not_mem (numberToken_mem w) (by simp)⟩

/-- Behind the whitespace, a comment starts with two dashes. What it reads from there on is told by
them alone. -/
theorem scan_dashes (h : (scan r).token = .comment ∨ (scan r).token = .longComment) :
    ∃ s, r.dropWhile isSpace = ascii "--" ++ s ∧ scan r = comment false 0 (ascii "--") s := by
  rw [scan] at h ⊢
  generalize r.dropWhile isSpace = w at h ⊢
  cases w with
  | nil => simp at h
  | cons c w =>
    rcases lead_signed (.inr h) with ⟨pre, s, hw, hrun⟩ | ⟨rfl, s, rfl⟩
    · obtain rfl : w = pre ++ s := (List.cons.inj hw).2
      have hne := numberToken_not_comment (c :: pre ++ s.takeWhile isNumberPart)
      dsimp only at h
      rw [hrun, run] at h
      exact absurd h (by simp only [hne, or_self, not_false_eq_true])
    · exact ⟨s, rfl, rfl⟩

/-- There are no tokens in whitespace and comments, but those of comments, which are not
significant. By induction on the parts. -/
theorem tokens_blank (h : Blank r) : tokens r = [] := by
  induction h with
  | nil => rfl
  | @space c r hc _ ih =>
    have hskip : tokens ([c] ++ r) = tokens r := tokens_spaces (by simpa using hc)
    rwa [ih] at hskip
  | @comment s r hs _ ih =>
    obtain ⟨t, text, crs, ht, hcrs, hscan⟩ := scan_complete hs
    rw [tokens_of_comment (hscan r) ht, tokens_spaces (isSpace_of_cr hcrs), ih]
  | @line s hlf hopen =>
    have hfilter := comment_filter (r := s) idle_dashes
    have hline : 0x0A ∉ dropCR s := fun hmem => hlf (mem_dropCR hmem)
    have hothers : otherLines (dropCR s) = [] := by
      rw [otherLines, List.dropWhile_eq_nil_iff.mpr]
      · rfl
      · intro c hc
        have hne : c ≠ 0x0A := fun heq => hline (heq ▸ hc)
        simpa using hne
    rw [comment_short hopen (notMem_dropCR s), shortComment, hothers] at hfilter
    obtain ⟨htok, -, hrest⟩ := Scan.mk.inj hfilter
    have hscan : scan (ascii "--" ++ s) = ⟨.comment, (comment false 0 (ascii "--") s).text,
        (comment false 0 (ascii "--") s).rest⟩ := by rw [scan_comment, htok]
    have hspaces := tokens_spaces (r := []) (isSpace_of_cr (dropCR_eq_nil.mp hrest.symm))
    rw [tokens_of_comment hscan (.inl rfl), ← List.append_nil (comment false 0 _ s).rest, hspaces]
    rfl

/-- Whitespace may stand in front of whitespace and comments. -/
theorem blank_spaces (hsp : ∀ c ∈ sp, isSpace c = true) (h : Blank r) : Blank (sp ++ r) := by
  induction sp with
  | nil => exact h
  | cons c sp ih =>
    obtain ⟨hc, hsp⟩ := List.forall_mem_cons.mp hsp
    exact .space hc (ih hsp)

/-- **Bytes hold no significant token iff they are whitespace and comments**, a last one without its
newline among them. -/
theorem tokens_eq_nil : tokens r = [] ↔ Blank r := by
  refine ⟨fun h => ?_, tokens_blank⟩
  induction hn : r.length using Nat.strongRecOn generalizing r with
  | ind n ih =>
    subst hn
    rw [← List.takeWhile_append_dropWhile (p := isSpace) (l := r)]
    refine blank_spaces (fun c => List.mem_takeWhile_imp) ?_
    rcases scan_rest r with ⟨-, hnil⟩ | ⟨⟨heof, -⟩, hlt⟩
    · rw [hnil]
      exact .nil
    by_cases hcomment : (scan r).token = .comment ∨ (scan r).token = .longComment
    · obtain ⟨s, hdrop, hscan⟩ := scan_dashes hcomment
      rw [tokens_comment hcomment] at h
      have hvalid : (comment false 0 (ascii "--") s).token ≠ .invalid := by
        rw [← hscan]
        intro hinvalid
        rw [hinvalid] at hcomment
        simp at hcomment
      obtain ⟨span, hs, hcomplete | ⟨hlf, hopen⟩⟩ := comment_read hvalid
      · rw [hdrop, hs]
        exact .comment hcomplete (hscan ▸ ih _ hlt h rfl)
      · rw [hdrop]
        exact .line hlf hopen
    · rw [tokens_other heof hcomment] at h
      cases h

/-! ## Behind one token -/

/-- Whitespace goes on with no number, no name and no opening bracket. -/
theorem isSpace_not_part (h : isSpace c = true) :
    isNumberPart c = false ∧ isNamePart c = false ∧ c ≠ 0x5B ∧ c ≠ 0x3D := by
  simp only [isSpace, Bool.or_eq_true, decide_eq_true_eq] at h
  rcases h with ((((rfl | rfl) | rfl) | rfl) | rfl) | rfl <;> exact ⟨rfl, rfl, by simp, by simp⟩

/-- Whitespace and dashes prolong no token but a number and a comment without its newline. -/
theorem follows_insignificant (hvalid : t ≠ .invalid)
    (hended : t = .comment → text.getLast? = some 0x0A)
    (hc : isSpace c = true ∨ c = 0x2D ∧ t ≠ .number) : Follows t text (some c) := by
  rcases hc with hspace | ⟨rfl, hnum⟩
  · obtain ⟨hnum, hname, hopen, hsign⟩ := isSpace_not_part hspace
    cases t <;> simp_all [Follows]
  · cases t <;> simp_all [Follows] <;> decide

/-- A token takes a front of the bytes, which gives the same token before other bytes that may
follow. -/
theorem scan_front (heof : (scan r).token ≠ .eof) (hvalid : (scan r).token ≠ .invalid) :
    ∃ q, q ≠ [] ∧ r = q ++ (scan r).rest ∧
      Follows (scan r).token (scan r).text (scan r).rest.head? ∧
      ∀ s, Follows (scan r).token (scan r).text s.head? →
        scan (q ++ s) = ⟨(scan r).token, (scan r).text, s⟩ := by
  have hr : r.dropWhile isSpace ≠ [] := fun hnil => heof (by rw [scan_eq_eof hnil])
  obtain ⟨c, span, -, hcut, -, hnext, hread⟩ := scan_sliced hr hvalid
  refine ⟨r.takeWhile isSpace ++ c :: span, by simp, ?_, hnext, fun s hs => ?_⟩
  · rw [List.append_assoc, ← hcut, List.takeWhile_append_dropWhile]
  · rw [List.append_assoc]
    exact hread _ s (fun b => List.mem_takeWhile_imp) hs

/-- A number takes the dashes behind it: the run goes on with them, so that the token is another
one. A dash is a byte that a number may hold (`isNumberPart`), so that the run does not stop in
front of it. -/
theorem number_prolonged {q : Bytes} (h : (scan r).token = .number)
    (hr : r = q ++ (scan r).rest) (s : Bytes) : ∃ w rest, (scan r).text.length < w.length ∧
      scan (q ++ 0x2D :: s) = ⟨numberToken w, w, rest⟩ := by
  have hsplit := List.takeWhile_append_dropWhile (p := isSpace) (l := r)
  have hws : ∀ b ∈ r.takeWhile isSpace, isSpace b = true := fun b => List.mem_takeWhile_imp
  have hhead := List.head?_dropWhile_not isSpace r
  have hscan : scan (r.takeWhile isSpace ++ r.dropWhile isSpace) = scan (r.dropWhile isSpace) :=
    scan_append hws
  rw [hsplit] at hscan
  rw [hscan] at h hr ⊢
  generalize r.takeWhile isSpace = ws at hsplit hws
  generalize r.dropWhile isSpace = d at hsplit hhead h hr
  cases d with
  | nil => simp [scan] at h
  | cons c d =>
    have hc : isSpace c = false := hhead
    have hlead (s : Bytes) : scan (c :: s) = lead c s := by
      rw [scan, List.dropWhile_cons, if_neg (by simp [hc])]
    rw [hlead] at h hr ⊢
    rcases lead_signed (.inl h) with ⟨pre, e, hd, hrun⟩ | ⟨rfl, e, rfl⟩
    · obtain rfl : d = pre ++ e := (List.cons.inj hd).2
      rw [hrun, run] at hr ⊢
      have hq : q = ws ++ (c :: pre ++ e.takeWhile isNumberPart) := by
        refine List.append_cancel_right (hr.symm.trans (hsplit.symm.trans ?_))
        simp
      have hpart : ∀ b ∈ e.takeWhile isNumberPart ++ [0x2D], isNumberPart b = true := by
        intro b hb
        rcases List.mem_append.mp hb with hb | hb
        · exact List.mem_takeWhile_imp hb
        · rw [List.mem_singleton.mp hb]
          rfl
      refine ⟨c :: pre ++ (e.takeWhile isNumberPart ++ 0x2D :: s).takeWhile isNumberPart,
        (e.takeWhile isNumberPart ++ 0x2D :: s).dropWhile isNumberPart, ?_, ?_⟩
      · have hrun : e.takeWhile isNumberPart ++ 0x2D :: s =
            (e.takeWhile isNumberPart ++ [0x2D]) ++ s := by simp
        rw [hrun, List.takeWhile_append_of_pos hpart]
        simp
      · have hbytes : c :: pre ++ e.takeWhile isNumberPart ++ 0x2D :: s =
            c :: (pre ++ (e.takeWhile isNumberPart ++ 0x2D :: s)) := by simp
        rw [hq, List.append_assoc, scan_append hws, hbytes, hlead, hrun, run]
    · exact absurd h (ne_of_mem_of_not_mem (comment_mem _ _ _ _) (by simp))

/-- A comment that the end of the input broke off takes what is put behind it, up to the next
newline. -/
theorem comment_prolonged (h : (scan r).token = .comment)
    (hlast : (scan r).text.getLast? ≠ some 0x0A) (hv : Insignificant s) :
    ∃ text, scan (r ++ s) = ⟨.comment, text, otherLines s⟩ := by
  obtain ⟨w, hdrop, hscan⟩ := scan_dashes (.inl h)
  have hws : ∀ b ∈ r.takeWhile isSpace, isSpace b = true := fun b => List.mem_takeWhile_imp
  rw [hscan] at h hlast
  obtain ⟨text, d, hunopened, hidle, hstep⟩ :=
    comment_unended (.inr ⟨rfl, .inl rfl⟩) idle_dashes h hlast
  have hhead : s = [0x0D] ∨ ∃ c s', s = c :: s' ∧ c ≠ 0x5B ∧ c ≠ 0x3D ∧ c ≠ 0x0D := by
    rcases hv with ⟨c, hc, rfl⟩ | hv
    · by_cases hcr : c = 0x0D
      · exact .inl (by rw [hcr])
      · obtain ⟨-, -, hopen, hsign⟩ := isSpace_not_part hc
        exact .inr ⟨c, [], rfl, hopen, hsign, hcr⟩
    · cases hv <;> exact .inr ⟨0x2D, _, rfl, by simp⟩
  obtain ⟨text', hread⟩ := comment_behind hunopened hidle hhead
  refine ⟨text', ?_⟩
  rw [← List.takeWhile_append_dropWhile (p := isSpace) (l := r), hdrop, List.append_assoc,
    scan_append hws, List.append_assoc, scan_comment, hstep, hread]

end

end Scan

/-- What may be inserted behind the whitespace `sp` that follows a token: no comment directly behind
a number; and behind a comment that the end of the input broke off, nothing that holds more than
whitespace and comments behind its first newline. -/
structure Harmless (t : Token) (text sp v : Bytes) : Prop where
  number : t = .number → sp = [] → ¬ CompleteComment v
  comment : t = .comment → text.getLast? ≠ some 0x0A → Blank (otherLines v)

namespace Scan

section
variable {r s q sp v b : Bytes} {ts : List (Token × Bytes)}

/-- Before a token, whitespace and complete comments are not significant. -/
theorem tokens_insert (hv : Insignificant v) (hplain : CompleteComment v →
    CompleteComment (dropCR v)) : tokens (v ++ b) = tokens b := by
  rcases hv with ⟨c, hc, rfl⟩ | hv
  · exact tokens_spaces (by simpa using hc)
  · obtain ⟨s, rfl⟩ : ∃ s, v = ascii "--" ++ s := by cases hv <;> exact ⟨_, rfl⟩
    have hdrop : dropCR (ascii "--" ++ s) = ascii "--" ++ dropCR s := dropCR_append _ _
    obtain ⟨t, text, crs, ht, hcrs, hscan⟩ := scan_complete (hdrop ▸ hplain hv)
    rw [List.append_assoc, tokens_of_comment (hscan b) ht, tokens_spaces (isSpace_of_cr hcrs)]

/-- **An insertion behind the first token.** That it changes nothing implies that it is harmless
behind that token; the converse asks that a comment be complete without its carriage returns too.
Two tokens take in what is put behind them: a comment without a newline, and a number in front of
dashes. All others are read as before (`scan_front`). -/
theorem tokens_inserted (heof : (scan r).token ≠ .eof) (hvalid : (scan r).token ≠ .invalid)
    (hr : r = q ++ (sp ++ b)) (hrest : (scan r).rest = sp ++ b)
    (hsp : ∀ c ∈ sp, isSpace c = true) (hv : Insignificant v) :
    (tokens (q ++ (sp ++ (v ++ b))) = tokens r → Harmless (scan r).token (scan r).text sp v) ∧
      (Harmless (scan r).token (scan r).text sp v →
        (CompleteComment v → CompleteComment (dropCR v)) →
        tokens (q ++ (sp ++ (v ++ b))) = tokens r) := by
  obtain ⟨q', -, hq', hnext, hread⟩ := scan_front heof hvalid
  rw [hrest] at hq' hnext
  obtain rfl : q = q' := List.append_cancel_right (hr.symm.trans hq')
  by_cases hended : (scan r).token = .comment ∧ (scan r).text.getLast? ≠ some 0x0A
  · -- the comment takes all of the insertion up to a newline
    obtain ⟨hcomment, hlast⟩ := hended
    have hnil : sp ++ b = [] := by
      rw [hcomment] at hnext
      exact List.head?_eq_none_iff.mp (hnext.resolve_left hlast)
    obtain ⟨rfl, rfl⟩ := List.append_eq_nil_iff.mp hnil
    obtain ⟨text, hscan⟩ := comment_prolonged hcomment hlast hv
    have htokens : tokens r = [] := by
      rw [tokens_comment (.inl hcomment), hrest]
      rfl
    rw [List.append_nil, List.append_nil] at hr
    rw [List.append_nil, List.nil_append, ← hr, tokens_of_comment hscan (.inl rfl), htokens]
    rw [hcomment]
    exact ⟨fun h => ⟨nofun, fun _ _ => tokens_eq_nil.mp h⟩,
      fun h _ => tokens_eq_nil.mpr (h.comment rfl hlast)⟩
  have hcomment : (scan r).token = .comment → (scan r).text.getLast? = some 0x0A :=
    fun h => not_not.mp fun hlast => hended ⟨h, hlast⟩
  by_cases hnumber : (scan r).token = .number ∧ sp = [] ∧ CompleteComment v
  · -- the number takes the dashes of the comment
    obtain ⟨hnum, rfl, hcomplete⟩ := hnumber
    refine ⟨fun h => ?_, fun h _ => absurd hcomplete (h.number hnum rfl)⟩
    obtain ⟨s, hs⟩ : ∃ s, v ++ b = 0x2D :: s := by cases hcomplete <;> exact ⟨_, rfl⟩
    obtain ⟨w, rest, hlen, hscan⟩ := number_prolonged hnum (hrest ▸ hr) s
    have hother : ¬ (numberToken w = .comment ∨ numberToken w = .longComment) :=
      not_or.mpr (numberToken_not_comment w)
    rw [List.nil_append, hs, tokens_other (by rw [hscan]; exact (numberToken_ne w).1)
      (by rwa [hscan]), tokens_other heof (by rw [hnum]; simp), hscan] at h
    have htext : w = (scan r).text := congrArg Prod.snd (List.cons.inj h).1
    exact absurd hlen (by rw [htext]; exact lt_irrefl _)
  · have hfollow : Follows (scan r).token (scan r).text (sp ++ (v ++ b)).head? := by
      cases sp with
      | cons c sp => exact follows_insignificant hvalid hcomment (.inl (hsp c List.mem_cons_self))
      | nil =>
        rcases hv with ⟨c, hc, rfl⟩ | hv
        · exact follows_insignificant hvalid hcomment (.inl hc)
        · obtain ⟨s, hs⟩ : ∃ s, v ++ b = 0x2D :: s := by cases hv <;> exact ⟨_, rfl⟩
          rw [List.nil_append, hs]
          exact follows_insignificant hvalid hcomment
            (.inr ⟨rfl, fun hnum => hnumber ⟨hnum, rfl, hv⟩⟩)
    refine ⟨fun _ => ⟨fun hnum hnil hc => hnumber ⟨hnum, hnil, hc⟩,
      fun h hlast => absurd (hcomment h) hlast⟩, fun _ hplain => ?_⟩
    have hscan := hread _ hfollow
    have hrest' : tokens (sp ++ (v ++ b)) = tokens (scan r).rest := by
      rw [hrest, tokens_spaces hsp, tokens_spaces hsp, tokens_insert hv hplain]
    by_cases hkind : (scan r).token = .comment ∨ (scan r).token = .longComment
    · rw [tokens_of_comment hscan hkind, tokens_comment hkind, hrest']
    · rw [tokens_other (by rwa [hscan]) (by rwa [hscan]), hscan, hrest', ← tokens_other heof hkind]

/-! ## Behind the tokens of a run -/

/-- The tokens `ts` are read from `r`, which leaves `s`, one after the other; none of them is the
end of the input. -/
inductive Reads : Bytes → List (Token × Bytes) → Bytes → Prop
  | nil (r : Bytes) : Reads r [] r
  | cons {r s : Bytes} {ts : List (Token × Bytes)} : (scan r).token ≠ .eof →
      Reads (scan r).rest ts s → Reads r (((scan r).token, (scan r).text) :: ts) s

/-- The tokens of some bytes are those that were read from their front, save comments, and those of
what is left. -/
theorem Reads.tokens_eq (h : Reads r ts s) : tokens r =
    ts.filter (fun x => x.1 ≠ .comment ∧ x.1 ≠ .longComment) ++ tokens s := by
  induction h with
  | nil r => rfl
  | @cons r s ts heof _ ih =>
    by_cases hkind : (scan r).token = .comment ∨ (scan r).token = .longComment
    · rw [tokens_comment hkind, ih, List.filter_cons,
        if_neg (by simpa [or_iff_not_imp_left] using hkind)]
    · rw [tokens_other heof hkind, ih, List.filter_cons, if_pos (by simpa using hkind)]
      rfl

/-- **The tokens read stay the same** before other bytes that may follow the last of them: they have
a front of the bytes as their own, which no other bytes behind it change. -/
theorem Reads.insert (h : Reads r ts s) (hvalid : ∀ x ∈ ts, x.1 ≠ .invalid) :
    ∃ p, r = p ++ s ∧ (ts ≠ [] → p ≠ []) ∧ (∀ x ∈ ts.getLast?, Follows x.1 x.2 s.head?) ∧
      ∀ s', (∀ x ∈ ts.getLast?, Follows x.1 x.2 s'.head?) → Reads (p ++ s') ts s' := by
  induction h with
  | nil r => exact ⟨[], rfl, fun h => absurd rfl h, by simp, fun s' _ => .nil s'⟩
  | @cons r s ts heof hreads ih =>
    obtain ⟨hfirst, hvalid⟩ := List.forall_mem_cons.mp hvalid
    obtain ⟨p, hp, hne, hlast, hinsert⟩ := ih hvalid
    obtain ⟨q, hq, hr, hnext, hread⟩ := scan_front heof hfirst
    have hcons {s' : Bytes}
        (hscan : scan (q ++ (p ++ s')) = ⟨(scan r).token, (scan r).text, p ++ s'⟩)
        (hreads' : Reads (p ++ s') ts s') :
        Reads (q ++ p ++ s') (((scan r).token, (scan r).text) :: ts) s' := by
      have hstep : (scan (q ++ (p ++ s'))).token ≠ .eof →
          Reads (scan (q ++ (p ++ s'))).rest ts s' → Reads (q ++ (p ++ s')) _ s' := Reads.cons
      rw [hscan] at hstep
      rw [List.append_assoc]
      exact hstep heof hreads'
    refine ⟨q ++ p, by rw [List.append_assoc, ← hp, ← hr], fun _ => by simp [hq], ?_⟩
    cases ts with
    | nil =>
      cases hreads
      obtain rfl : p = [] := List.append_cancel_right (hp.symm.trans (List.nil_append _).symm)
      exact ⟨by simpa using hnext, fun s' hs' => hcons (hread _ (by simpa using hs')) (.nil s')⟩
    | cons x ts =>
      rw [List.getLast?_cons_cons]
      refine ⟨hlast, fun s' hs' => hcons (hread _ ?_) (hinsert s' hs')⟩
      -- the next token is the same one
      obtain ⟨b, p, rfl⟩ := List.exists_cons_of_ne_nil (hne (by simp))
      rwa [hp] at hnext

end

end Scan

namespace Lexer

section
variable {σ : Type} {cs : CharSource σ} {src r : Bytes} {self : Lexer σ}

/-- What `k` calls leave is what is left behind `k` tokens, if there are so many before the end. By
induction on `k`: behind the end there are no bytes, so that no call before it has met the end. -/
theorem reads_unread (k : Nat) : ∀ r : Bytes, (scan (unread r k)).token ≠ .eof →
    ∃ ts, Reads r ts (unread r k) := by
  induction k with
  | zero => exact fun r _ => ⟨[], .nil r⟩
  | succ k ih =>
    intro r h
    rw [unread_succ] at h ⊢
    obtain ⟨ts, hts⟩ := ih _ h
    refine ⟨_, .cons (fun heof => h ?_) hts⟩
    have hnil : ∀ k, unread [] k = [] := by
      intro k
      induction k with
      | zero => rfl
      | succ k ih => exact ih
    rcases scan_rest r with ⟨hscan, -⟩ | ⟨⟨hne, -⟩, -⟩
    · rw [hscan, hnil]
      rfl
    · exact absurd heof hne

/-- The lexer behind `k` tokens. -/
theorem Ready.unread (h : Ready cs src r self) (k : Nat) :
    Ready cs src (unread r k) (after cs self k) := by
  induction k generalizing r self with
  | zero => exact h
  | succ k ih =>
    rw [unread_succ, after_succ]
    exact ih (nextToken_agrees h).1.2.2

/-- The significant tokens of a lexer are those of the bytes left, whatever it has read before. By
induction on the number of calls: a call gives the token of the scan, and the text with it. -/
theorem Ready.significant_eq (h : Ready cs src r self) :
    significant (lexemes cs self) = tokens r := by
  have hle : r.length ≤ limit cs self := h.length_le.trans (Nat.le_succ _)
  rw [tokens, lexemes, ← Scan.lexemesUpTo_eq [] (limit cs self) hle le_rfl]
  generalize limit cs self = n
  clear hle
  induction n generalizing r self with
  | zero => rfl
  | succ n ih =>
    obtain ⟨⟨htok, htext, hready⟩, -⟩ := nextToken_agrees h
    have htok' : (lexeme cs self).token = (scan r).token := htok
    rw [lexemesUpTo, Scan.lexemesUpTo, htok']
    split
    · rfl
    · have hlexeme : significant [lexeme cs self] = significant [Scan.lexeme [] r] :=
        significant_congr htok htext
      rw [significant_cons, significant_cons (Scan.lexeme [] r), hlexeme]
      exact congrArg _ (ih hready)

end

/-- **An insertion behind `k + 1` tokens.** Those before the last one are read as they were, and for
the last one it is an insertion behind the first token of the bytes left. -/
theorem tokens_inserted_behind {src a sp v b : Bytes} (k : Nat)
    (hvalid : ∀ y ∈ tokens src, y.1 ≠ .invalid) (heof : (scan (unread src k)).token ≠ .eof)
    (hsrc : src = a ++ (sp ++ b)) (hrest : (scan (unread src k)).rest = sp ++ b)
    (hsp : ∀ c ∈ sp, isSpace c = true) (hv : Insignificant v) :
    (tokens (a ++ (sp ++ (v ++ b))) = tokens src →
        Harmless (scan (unread src k)).token (scan (unread src k)).text sp v) ∧
      (Harmless (scan (unread src k)).token (scan (unread src k)).text sp v →
        (CompleteComment v → CompleteComment (dropCR v)) →
        tokens (a ++ (sp ++ (v ++ b))) = tokens src) := by
  obtain ⟨ts, hreads⟩ := reads_unread k src heof
  generalize unread src k = r at heof hrest hreads ⊢
  have htokens := hreads.tokens_eq
  have hvalid_ts : ∀ x ∈ ts, x.1 ≠ .invalid := by
    intro x hx hinvalid
    refine hvalid x ?_ hinvalid
    rw [htokens]
    exact List.mem_append_left _ (List.mem_filter.mpr ⟨hx, by simp [hinvalid]⟩)
  have hvalid_r : (scan r).token ≠ .invalid := by
    intro hinvalid
    refine hvalid ((scan r).token, (scan r).text) ?_ hinvalid
    rw [htokens, tokens_other heof (by simp [hinvalid])]
    simp
  obtain ⟨p, hp, -, hlast, hprefix⟩ := hreads.insert hvalid_ts
  obtain ⟨q, hq, hr, -, -⟩ := scan_front heof hvalid_r
  rw [hrest] at hr
  have ha : a = p ++ q := by
    refine List.append_cancel_right (hsrc.symm.trans (hp.trans ?_))
    rw [hr, List.append_assoc]
  have hhead : r.head? = (q ++ (sp ++ (v ++ b))).head? := by
    obtain ⟨c, q, rfl⟩ := List.exists_cons_of_ne_nil hq
    rw [hr]
    rfl
  have hreads' := hprefix (q ++ (sp ++ (v ++ b))) (hhead ▸ hlast)
  rw [ha, List.append_assoc, hreads'.tokens_eq, htokens, List.append_cancel_left_eq]
  exact tokens_inserted heof hvalid_r hr hrest hsp hv

/-- A place between the token of call `k` (from 0) and the next one, or the end of the input: behind
the bytes `a`, where that token ends, and the whitespace `sp`, before the bytes `b`. -/
structure Boundary {σ : Type} (cs : CharSource σ) (s : σ) (k : Nat) (a sp b : Bytes) : Prop where
  bytes_eq : cs.bytes s = a ++ (sp ++ b)
  token_ne : (nextToken cs (after cs { source := s } k)).1.1 ≠ .eof
  ready : Ready cs (cs.bytes s) (sp ++ b) (after cs { source := s } (k + 1))
  space : ∀ c ∈ sp, isSpace c = true

/-- **When an insertion changes nothing.** Let no token of the source be invalid. If the tokens
other than comments stay the same with a whitespace byte or a complete comment between two tokens,
then no comment was put directly behind a number, nor anything but whitespace and comments behind
the first newline behind a comment that the end of the input broke off (`Harmless`). Where this
holds and the comment is complete without its carriage returns too, they stay the same. The second
condition has no converse: a comment that is complete only with its carriage returns reads on into
the source, and what it swallows may be a comment anyway. -/
theorem insertion_unchanged {σ : Type} {cs : CharSource σ} {s s' : σ} {k : Nat}
    {a sp v b : Bytes} (hs : cs.Ok s) (hs' : cs.Ok s')
    (hvalid : ∀ x ∈ lexemes cs { source := s }, x.token ≠ .invalid)
    (hb : Boundary cs s k a sp b) (hv : Insignificant v)
    (hinsert : cs.bytes s' = a ++ (sp ++ (v ++ b))) :
    (significant (lexemes cs { source := s' }) = significant (lexemes cs { source := s }) →
        Harmless (nextToken cs (after cs { source := s } k)).1.1
          (nextToken cs (after cs { source := s } k)).2.tokenString sp v) ∧
      (Harmless (nextToken cs (after cs { source := s } k)).1.1
          (nextToken cs (after cs { source := s } k)).2.tokenString sp v →
        (CompleteComment v → CompleteComment (dropCR v)) →
        significant (lexemes cs { source := s' }) = significant (lexemes cs { source := s })) := by
  have hready := ready_new hs
  obtain ⟨⟨htok, htext, hnext⟩, -⟩ := nextToken_agrees (hready.unread k)
  have htoken : (nextToken cs (after cs { source := s } k)).1.1 =
      (scan (unread (cs.bytes s) k)).token := htok
  have htext' : (nextToken cs (after cs { source := s } k)).2.tokenString =
      (scan (unread (cs.bytes s) k)).text := htext
  have heof := hb.token_ne
  have hsucc := hb.ready
  rw [after, Function.iterate_succ_apply', ← after] at hsucc
  have hsource := hready.significant_eq
  have hmem : ∀ y ∈ tokens (cs.bytes s), y.1 ≠ .invalid := by
    rw [← hsource]
    intro y hy
    obtain ⟨x, hx, rfl⟩ := List.mem_map.mp hy
    exact hvalid x (List.mem_filter.mp hx).1
  rw [(ready_new hs').significant_eq, hsource, hinsert, htext']
  rw [htoken] at heof ⊢
  exact tokens_inserted_behind k hmem heof hb.bytes_eq (hnext.unique hsucc) hb.space hv

/-- The comment `--x` and its newline. -/
theorem completeComment_x : CompleteComment (ascii "--x\n") := by
  have hopen (n : Nat) : ¬ opener n <+: ascii "x" := fun h => by
    have hhead := (List.cons_prefix_cons.mp h).1
    cases hhead
  exact .short (by decide) hopen

/-- That comment between the tokens of `a,`: behind a name it changes nothing. -/
theorem insertion_unchanged_example :
    significant (lexemes CharSource.ofBytes { source := ascii "a--x\n," }) =
      significant (lexemes CharSource.ofBytes { source := ascii "a," }) := by
  have hok (s : Bytes) : CharSource.ofBytes.Ok s := trivial
  have hb : Boundary CharSource.ofBytes (ascii "a,") 0 (ascii "a") [] (ascii ",") :=
    ⟨rfl, by decide, (nextToken_agrees (ready_ofBytes _)).1.2.2, nofun⟩
  have hinsert : CharSource.ofBytes.bytes (ascii "a--x\n,") =
      ascii "a" ++ ([] ++ (ascii "--x\n" ++ ascii ",")) := rfl
  refine (insertion_unchanged (hok _) (hok _) (by decide) hb (.inr completeComment_x)
    hinsert).2 ⟨fun h => ?_, fun h => ?_⟩ fun _ => completeComment_x
  · exact absurd h (by decide)
  · exact absurd h (by decide)

/-- That comment directly behind the number of `1,`. -/
theorem insertion_unchanged_fails :
    (∀ x ∈ lexemes CharSource.ofBytes { source := ascii "1," }, x.token ≠ .invalid) ∧
      Boundary CharSource.ofBytes (ascii "1,") 0 (ascii "1") [] (ascii ",") ∧
      Insignificant (ascii "--x\n") ∧
      significant (lexemes CharSource.ofBytes { source := ascii "1--x\n," }) ≠
        significant (lexemes CharSource.ofBytes { source := ascii "1," }) :=
  ⟨by decide +kernel,
    ⟨rfl, by decide +kernel, (nextToken_agrees (ready_ofBytes _)).1.2.2, nofun⟩,
    .inr completeComment_x, by decide +kernel⟩

end Lexer

end Eltn
