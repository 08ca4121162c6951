import Eltn.Lexer.Insertion

/-!
# The layout of tokens

Bytes hold a list of valid tokens exactly if the tokens stand in them one behind the other, each
before a byte that does not prolong it, with whitespace and complete comments between them
(`layout_iff`).
-/

namespace Eltn

open Scan

/-- Whitespace and complete comments, in any order. What is complete is said of a comment without
its carriage returns, which the lexer drops. -/
inductive Gap : Bytes → Prop
  | nil : Gap []
  | space {c : UInt8} {r : Bytes} : isSpace c = true → Gap r → Gap (c :: r)
  | comment {s r : Bytes} : CompleteComment (ascii "--" ++ dropCR s) → Gap r →
      Gap (ascii "--" ++ (s ++ r))

/-- The bytes are one valid token that is no comment, without whitespace around it: read alone, with
nothing behind them, they are that token and nothing is left. It is the lexer that says what is a
token and of which kind, not the grammar of the manual: read alone, `t` is `true`. -/
structure IsToken (x : Token × Bytes) (w : Bytes) : Prop where
  head : ∀ c ∈ w.head?, isSpace c = false
  scan_eq : scan w = ⟨x.1, x.2, []⟩
  kind : x.1 ∉ [.eof, .invalid, .comment, .longComment]

/-- Tokens that stand in bytes, one behind the other. In front of each there is whitespace and
complete comments, behind each a byte that does not prolong it (or none), and behind the last one
whitespace and comments again, where a short comment need not be finished. -/
inductive Layout : List (Token × Bytes) → Bytes → Prop
  | nil {r : Bytes} : Blank r → Layout [] r
  | cons {x : Token × Bytes} {gap w r : Bytes} {ts : List (Token × Bytes)} : Gap gap →
      IsToken x w → Follows x.1 x.2 r.head? → Layout ts r → Layout (x :: ts) (gap ++ (w ++ r))

section
variable {gap w r sp s : Bytes} {x : Token × Bytes} {ts : List (Token × Bytes)}

/-- Whitespace may stand in front of a gap. -/
theorem Gap.spaces (hsp : ∀ c ∈ sp, isSpace c = true) (h : Gap gap) : Gap (sp ++ gap) := by
  induction sp with
  | nil => exact h
  | cons c sp ih =>
    obtain ⟨hc, hsp⟩ := List.forall_mem_cons.mp hsp
    exact .space hc (ih hsp)

/-- **A gap is insignificant.** The tokens behind it are the tokens of the bytes behind it: its
comments are complete, and its whitespace is skipped. -/
theorem Gap.tokens (h : Gap gap) (r : Bytes) : tokens (gap ++ r) = Scan.tokens r := by
  induction h with
  | nil => rfl
  | @space c gap hc _ ih =>
    have hsp : ∀ d ∈ [c], isSpace d = true := List.forall_mem_singleton.mpr hc
    exact (tokens_spaces hsp).trans ih
  | @comment s gap hs _ ih =>
    obtain ⟨t, text, crs, ht, hcrs, hscan⟩ := scan_complete hs
    rw [List.append_assoc, List.append_assoc, tokens_of_comment (hscan _) ht,
      tokens_spaces (isSpace_of_cr hcrs), ih]

/-- A token is read in front of whatever may follow it. Read alone or in its place, it is the same
token with the same text. -/
theorem IsToken.scan_append (h : IsToken x w) (hnext : Follows x.1 x.2 r.head?) :
    scan (w ++ r) = ⟨x.1, x.2, r⟩ := by
  obtain ⟨hvalid, heof⟩ : x.1 ≠ .invalid ∧ x.1 ≠ .eof := by
    have hkind := h.kind
    constructor <;> intro hx <;> simp [hx] at hkind
  obtain ⟨q, -, hq, -, hread⟩ := scan_front (r := w) (by rw [h.scan_eq]; exact heof)
    (by rw [h.scan_eq]; exact hvalid)
  rw [h.scan_eq, List.append_nil] at hq
  rw [h.scan_eq, ← hq] at hread
  exact hread r hnext

/-- A token is the first one of its bytes and those behind it, if they do not prolong it. -/
theorem IsToken.tokens (h : IsToken x w) (hnext : Follows x.1 x.2 r.head?) :
    tokens (w ++ r) = x :: Scan.tokens r := by
  have hscan := h.scan_append hnext
  have hkind := h.kind
  rw [tokens_other, hscan]
  · rw [hscan]
    intro heof
    simp [show x.1 = .eof from heof] at hkind
  · rw [hscan]
    rintro (hcomment | hcomment)
    · simp [show x.1 = .comment from hcomment] at hkind
    · simp [show x.1 = .longComment from hcomment] at hkind

/-- Any token may stand at the end of the input. -/
theorem follows_none (t : Token) (text : Bytes) : Follows t text none := by
  cases t <;> simp [Follows]

/-- What a scan takes is whitespace and a token, which is read alone as it was read in its place.
Bytes in front of which a scan stopped have no say in it (`scan_front`). -/
theorem scan_isToken (heof : (scan r).token ≠ .eof) (hvalid : (scan r).token ≠ .invalid)
    (hcomment : ¬ ((scan r).token = .comment ∨ (scan r).token = .longComment)) :
    ∃ sp w, r = sp ++ (w ++ (scan r).rest) ∧ (∀ c ∈ sp, isSpace c = true) ∧
      IsToken ((scan r).token, (scan r).text) w ∧
      Follows (scan r).token (scan r).text (scan r).rest.head? := by
  obtain ⟨q, -, hr, hnext, hread⟩ := scan_front heof hvalid
  have hsp : ∀ c ∈ q.takeWhile isSpace, isSpace c = true := fun c => List.mem_takeWhile_imp
  have hq := List.takeWhile_append_dropWhile (p := isSpace) (l := q)
  refine ⟨q.takeWhile isSpace, q.dropWhile isSpace, ?_, hsp, ⟨?_, ?_, ?_⟩, hnext⟩
  · rw [← List.append_assoc, hq]
    exact hr
  · have hhead := List.head?_dropWhile_not isSpace q
    intro c hc
    rw [hc] at hhead
    simpa using hhead
  · have hwhole := hread [] (follows_none _ _)
    rw [List.append_nil, ← hq, Eltn.scan_append hsp] at hwhole
    exact hwhole
  · simp only [List.mem_cons, List.not_mem_nil, or_false, not_or]
    exact ⟨heof, hvalid, not_or.mp hcomment⟩

/-- Bytes of which a valid token was read are a gap, that token, and bytes that may follow it. By
induction on the length of the bytes, a comment or whitespace in front being part of the gap. -/
theorem layout_of_tokens (h : tokens r = x :: ts) (hvalid : x.1 ≠ .invalid) :
    ∃ gap w rest, r = gap ++ (w ++ rest) ∧ Gap gap ∧ IsToken x w ∧
      Follows x.1 x.2 rest.head? ∧ tokens rest = ts := by
  induction hn : r.length using Nat.strongRecOn generalizing r with
  | ind n ih =>
    subst hn
    have hnil : tokens r ≠ [] := by rw [h]; exact List.cons_ne_nil _ _
    have heof : (scan r).token ≠ .eof := fun heof => hnil (tokens_eof heof)
    by_cases hcomment : (scan r).token = .comment ∨ (scan r).token = .longComment
    · obtain ⟨s, hdrop, hscan⟩ := scan_dashes hcomment
      have hlt : (scan r).rest.length < r.length := by
        rcases scan_rest r with ⟨heof', -⟩ | ⟨-, hlt⟩
        · exact absurd (by rw [heof']) heof
        · exact hlt
      have hr := List.takeWhile_append_dropWhile (p := isSpace) (l := r)
      have hsp : ∀ c ∈ r.takeWhile isSpace, isSpace c = true := fun c => List.mem_takeWhile_imp
      have hcvalid : (comment false 0 (ascii "--") s).token ≠ .invalid := by
        rw [← hscan]
        intro hinvalid
        rw [hinvalid] at hcomment
        simp at hcomment
      obtain ⟨span, hs, hcomplete | ⟨hlf, hopen⟩⟩ := comment_read hcvalid
      · obtain ⟨gap, w, rest, hrest, hgap, hw, hnext, hts⟩ :=
          ih _ hlt (by rw [← tokens_comment hcomment]; exact h) rfl
        refine ⟨r.takeWhile isSpace ++ (ascii "--" ++ (span ++ gap)), w, rest, ?_,
          Gap.spaces hsp (.comment hcomplete hgap), hw, hnext, hts⟩
        rw [hscan] at hrest
        rw [List.append_assoc, List.append_assoc, List.append_assoc, ← hrest, ← hs, ← hdrop, hr]
      · refine absurd ?_ hnil
        rw [← hr, hdrop]
        exact tokens_blank (blank_spaces hsp (.line hlf hopen))
    · rw [tokens_other heof hcomment] at h
      obtain ⟨rfl, hts⟩ := List.cons.inj h
      obtain ⟨sp, w, hr, hsp, hw, hnext⟩ := scan_isToken heof hvalid hcomment
      refine ⟨sp, w, (scan r).rest, hr, ?_, hw, hnext, hts⟩
      rw [← List.append_nil sp]
      exact Gap.spaces hsp .nil

/-- **Tokens and their layout.** Bytes hold a list of valid tokens exactly if the tokens stand in
them one behind the other. -/
theorem layout_iff : Layout ts r ↔ tokens r = ts ∧ ∀ x ∈ ts, x.1 ≠ .invalid := by
  constructor
  · intro h
    induction h with
    | nil hblank => exact ⟨tokens_blank hblank, fun x hx => by cases hx⟩
    | @cons x gap w r ts hgap hw hnext _ ih =>
      refine ⟨by rw [hgap.tokens, hw.tokens hnext, ih.1], List.forall_mem_cons.mpr ⟨?_, ih.2⟩⟩
      intro hinvalid
      have hkind := hw.kind
      simp [hinvalid] at hkind
  · rintro ⟨h, hvalid⟩
    induction ts generalizing r with
    | nil => exact .nil (tokens_eq_nil.mp h)
    | cons x ts ih =>
      obtain ⟨hx, hts⟩ := List.forall_mem_cons.mp hvalid
      obtain ⟨gap, w, rest, rfl, hgap, hw, hnext, hrest⟩ := layout_of_tokens h hx
      exact .cons hgap hw hnext (ih hrest hts)

end

namespace Lexer

/-- **The tokens of a text are laid out in it.** For every source and every list of valid tokens:
these are the tokens of the source other than comments, with their texts, exactly if they stand in
its bytes one behind the other, each before a byte that does not prolong it, with whitespace and
complete comments between them. -/
theorem significant_iff_layout {σ : Type} (cs : CharSource σ) {s : σ} (hs : cs.Ok s)
    {ts : List (Token × Bytes)} (hvalid : ∀ x ∈ ts, x.1 ≠ .invalid) :
    significant (lexemes cs { source := s }) = ts ↔ Layout ts (cs.bytes s) := by
  rw [(ready_new hs).significant_eq, layout_iff]
  exact ⟨fun h => ⟨h, hvalid⟩, fun h => h.1⟩

/-- The tokens of `x =--c`, a newline and `1`. -/
theorem significant_iff_layout_example :
    Layout [(.name, ascii "x"), (.equals, ascii "="), (.number, ascii "1")]
      (ascii "x =--c\n1") :=
  (significant_iff_layout .ofBytes (s := ascii "x =--c\n1") trivial
    (by decide)).mp (by decide +kernel)

end Lexer

end Eltn
