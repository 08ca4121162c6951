import Eltn.Lexer.Compare
import Eltn.Lexer.Quoted

/-!
# Quoted string literals

A literal of the grammar is a quote, a list of elements (bytes and escapes) and the same quote. The
lexer's loop knows the byte before and the last two of the text only: it does not tell an escaped
backslash from one that escapes, and it sees the `\z` that allows a newline only right before that
newline. `string_literal_iff` is what follows for the literals it reads as one token.
-/

namespace Eltn

/-- An element of a quoted string. A newline behind a backslash is LF (`newline`) or CR LF
(`crlf`). -/
inductive Element where
  | plain (c : UInt8)
  | escape (c : UInt8)
  | hex (a b : UInt8)
  | octal (ds : Bytes)
  | unicode (hs : Bytes)
  | newline
  | crlf
  | skip (ws : Bytes)
deriving DecidableEq, Repr

namespace Element

/-- The bytes of an element, as they stand between the quotes of a literal. -/
def bytes : Element → Bytes
  | plain c => [c]
  | escape c => [0x5C, c]
  | hex a b => [0x5C, 0x78, a, b]
  | octal ds => 0x5C :: ds
  | unicode hs => 0x5C :: 0x75 :: 0x7B :: (hs ++ [0x7D])
  | newline => [0x5C, 0x0A]
  | crlf => [0x5C, 0x0D, 0x0A]
  | skip ws => 0x5C :: 0x7A :: ws

/-- The elements of a string with the quote `q` that can stand in the text of a token, which has no
carriage returns: the lexer drops them. -/
def Ok (q : UInt8) : Element → Prop
  | plain c => c ≠ q ∧ c ≠ 0x5C ∧ c ≠ 0x0D ∧ c ≠ 0x0A
  | escape c => c ∈ ascii "abfnrtv\\\"'"
  | hex a b => isHexdigit a = true ∧ isHexdigit b = true
  | octal ds => ds ≠ [] ∧ ds.length ≤ 3 ∧ ∀ c ∈ ds, isOctdigit c = true
  | unicode hs => hs ≠ [] ∧ ∀ c ∈ hs, isHexdigit c = true
  | newline => True
  | crlf => False
  | skip ws => ∀ c ∈ ws, c = 0x20 ∨ c = 0x09 ∨ c = 0x0A

instance (q : UInt8) : DecidablePred (Ok q)
  | plain c => inferInstanceAs (Decidable (c ≠ q ∧ c ≠ 0x5C ∧ c ≠ 0x0D ∧ c ≠ 0x0A))
  | escape c => inferInstanceAs (Decidable (c ∈ ascii "abfnrtv\\\"'"))
  | hex a b => inferInstanceAs (Decidable (isHexdigit a = true ∧ isHexdigit b = true))
  | octal ds => inferInstanceAs
      (Decidable (ds ≠ [] ∧ ds.length ≤ 3 ∧ ∀ c ∈ ds, isOctdigit c = true))
  | unicode hs => inferInstanceAs (Decidable (hs ≠ [] ∧ ∀ c ∈ hs, isHexdigit c = true))
  | newline => inferInstanceAs (Decidable True)
  | crlf => inferInstanceAs (Decidable False)
  | skip ws => inferInstanceAs (Decidable (∀ c ∈ ws, c = 0x20 ∨ c = 0x09 ∨ c = 0x0A))

/-- A `\z` skips no newline but one right behind it. -/
def NewlineFirst : Element → Prop
  | skip ws => 0x0A ∉ ws.tail
  | _ => True

instance : DecidablePred NewlineFirst
  | skip ws => inferInstanceAs (Decidable (0x0A ∉ ws.tail))
  | plain _ | escape _ | hex _ _ | octal _ | unicode _ | newline | crlf =>
    inferInstanceAs (Decidable True)

end Element

/-- The bytes between the quotes. -/
def literalBody (es : List Element) : Bytes := es.flatMap Element.bytes

namespace Scan

open Lexer

section
variable {q prev c d : UInt8} {text w r : Bytes} {e : Element} {es : List Element}

/-- No byte of the list is the quote, a newline or a carriage return. -/
def Tame (q : UInt8) (w : Bytes) : Prop := ∀ c ∈ w, c ≠ q ∧ c ≠ 0x0A ∧ c ≠ 0x0D

/-- The loop of quoted strings keeps bytes that are no quote, no newline and no carriage return. -/
theorem quote_tame (h : Tame q w) :
    quote q prev text (w ++ r) = quote q (w.getLastD prev) (text ++ w) r := by
  induction w generalizing prev text with
  | nil => simp
  | cons c w ih =>
    obtain ⟨⟨hq, hlf, hcr⟩, hw⟩ := List.forall_mem_cons.mp h
    rw [List.cons_append, quote, if_neg hcr, if_neg (by simp [hlf]), if_neg (by simp [hq]), ih hw,
      List.getLastD_cons, List.append_assoc, List.singleton_append]

/-- The byte behind a backslash is kept, even if it is the quote or a newline. -/
theorem quote_escape (hq : q ≠ 0x5C) (hd : d ≠ 0x0D) :
    quote q prev text (0x5C :: d :: r) = quote q d (text ++ [0x5C, d]) r := by
  rw [quote, if_neg (by simp), if_neg (by simp), if_neg (by simp [Ne.symm hq]), quote, if_neg hd,
    if_neg (by simp), if_neg (by simp), List.append_assoc, List.singleton_append]

/-- The text ends with `\z` exactly if these are its last two bytes, whatever escapes what. -/
theorem endsWith_skip_iff :
    tokenBufferEndsWith (text ++ [d, c]) (ascii "\\z") = true ↔ d = 0x5C ∧ c = 0x7A := by
  rw [tokenBufferEndsWith_iff (by decide)]
  constructor
  · rintro ⟨front, heq⟩
    have hlast : ascii "\\z" = [d, c] := (List.append_inj' heq rfl).2
    cases hlast
    exact ⟨rfl, rfl⟩
  · rintro ⟨rfl, rfl⟩
    exact List.suffix_append text _

/-- Classes of bytes without quotes, newlines and carriage returns are kept as they are by the loop
that reads a string. -/
theorem tame_of {p : UInt8 → Bool} (hp : p 0x27 = false ∧ p 0x22 = false ∧ p 0x0A = false ∧
    p 0x0D = false) (hq : q = 0x27 ∨ q = 0x22) (h : ∀ c ∈ w, p c = true) : Tame q w := by
  intro c hc
  have hpc := h c hc
  refine ⟨?_, ?_, ?_⟩
  · rintro rfl
    rcases hq with rfl | rfl
    · rw [hp.1] at hpc
      cases hpc
    · rw [hp.2.1] at hpc
      cases hpc
  · rintro rfl
    rw [hp.2.2.1] at hpc
    cases hpc
  · rintro rfl
    rw [hp.2.2.2] at hpc
    cases hpc

/-- Spaces and tabs. -/
theorem tame_blank (hq : q = 0x27 ∨ q = 0x22) (h : ∀ c ∈ w, c = 0x20 ∨ c = 0x09 ∨ c = 0x0A)
    (hlf : 0x0A ∉ w) : Tame q w := by
  refine tame_of (p := fun c => c = 0x20 || c = 0x09) ⟨rfl, rfl, rfl, rfl⟩ hq fun c hc => ?_
  rcases h c hc with rfl | rfl | rfl
  · rfl
  · rfl
  · exact absurd hc hlf

/-- A newline right behind `\z` is kept. -/
theorem quote_skip (hq : q = 0x27 ∨ q = 0x22) (hc : c = 0x20 ∨ c = 0x09 ∨ c = 0x0A) :
    quote q 0x7A (text ++ [0x5C, 0x7A]) (c :: r) = quote q c (text ++ [0x5C, 0x7A, c]) r := by
  have hcq : c ≠ q := by rcases hc with rfl | rfl | rfl <;> rcases hq with rfl | rfl <;> simp
  have hcr : c ≠ 0x0D := by rcases hc with rfl | rfl | rfl <;> simp
  have hz : tokenBufferEndsWith (text ++ [0x5C, 0x7A]) (ascii "\\z") = true :=
    endsWith_skip_iff.mpr ⟨rfl, rfl⟩
  rw [quote, if_neg hcr, if_neg (by simp [hz]), if_neg (by simp [hcq]), List.append_assoc]
  rfl

/-- An element whose newlines are allowed is kept: the loop goes on behind it with its bytes as part
of the text. By cases on the element: behind the backslash and its byte stand tame bytes only
(`Tame`), save for `\z`, whose first newline has its own rule (`quote_skip`). -/
theorem quote_element (hq : q = 0x27 ∨ q = 0x22) (he : e.Ok q) (hfirst : e.NewlineFirst) :
    quote q prev text (e.bytes ++ r) =
      quote q (e.bytes.getLastD prev) (text ++ e.bytes) r := by
  have hqb : q ≠ 0x5C := quote_ne_backslash hq
  have htail {w : Bytes} (d : UInt8) (hd : d ≠ 0x0D) (hw : Tame q w) :
      quote q prev text (0x5C :: d :: (w ++ r)) =
        quote q ((0x5C :: d :: w).getLastD prev) (text ++ 0x5C :: d :: w) r := by
    rw [quote_escape hqb hd, quote_tame hw, List.append_assoc, List.getLastD_cons,
      List.getLastD_cons]
    rfl
  cases e with
  | plain c =>
    obtain ⟨hcq, -, hcr, hlf⟩ := he
    exact quote_tame (w := [c]) (by simp [Tame, hcq, hlf, hcr])
  | escape c =>
    have hcr : c ≠ 0x0D := by
      rintro rfl
      exact absurd (show (0x0D : UInt8) ∈ ascii "abfnrtv\\\"'" from he) (by decide)
    exact htail (w := []) c hcr (by simp [Tame])
  | hex a b =>
    have hab : ∀ c ∈ [a, b], isHexdigit c = true := by simpa using And.intro he.1 he.2
    exact htail (w := [a, b]) 0x78 (by simp) (tame_of ⟨rfl, rfl, rfl, rfl⟩ hq hab)
  | octal ds =>
    obtain ⟨hne, -, hds⟩ := he
    cases ds with
    | nil => exact absurd rfl hne
    | cons d ds =>
      have htame := tame_of ⟨rfl, rfl, rfl, rfl⟩ hq hds
      exact htail (w := ds) d (htame d List.mem_cons_self).2.2
        fun c hc => htame c (List.mem_cons_of_mem d hc)
  | unicode hs =>
    have htame : Tame q (0x7B :: (hs ++ [0x7D])) := by
      refine tame_of (p := fun c => c = 0x7B || c = 0x7D || isHexdigit c) ⟨rfl, rfl, rfl, rfl⟩ hq ?_
      intro c hc
      rcases List.mem_cons.mp hc with rfl | hc
      · rfl
      rcases List.mem_append.mp hc with hc | hc
      · simp [he.2 c hc]
      · simp [List.mem_singleton.mp hc]
    exact htail (w := 0x7B :: (hs ++ [0x7D])) 0x75 (by simp) htame
  | newline => exact htail (w := []) 0x0A (by simp) (by simp [Tame])
  | crlf => exact absurd he id
  | skip ws =>
    cases ws with
    | nil => exact htail (w := []) 0x7A (by simp) (by simp [Tame])
    | cons c ws =>
      obtain ⟨hc, hws⟩ := List.forall_mem_cons.mp he
      rw [Element.bytes, List.cons_append, List.cons_append, List.cons_append,
        quote_escape hqb (by simp), quote_skip hq hc, quote_tame (tame_blank hq hws hfirst),
        List.append_assoc]
      simp only [List.getLastD_cons, List.cons_append, List.nil_append]

/-- A newline behind other whitespace breaks off the string, although `\z` stands before all of it:
the lexer looks two bytes back. -/
theorem quote_blank (hq : q = 0x27 ∨ q = 0x22) (h : ∀ c ∈ w, c = 0x20 ∨ c = 0x09 ∨ c = 0x0A)
    (hlf : 0x0A ∈ w) (hc : c = 0x20 ∨ c = 0x09 ∨ c = 0x0A) :
    (quote q c (text ++ [d, c]) (w ++ r)).token = .invalid := by
  induction w generalizing text d c with
  | nil => cases hlf
  | cons b w ih =>
    obtain ⟨hb, hw⟩ := List.forall_mem_cons.mp h
    have hend : tokenBufferEndsWith (text ++ [d, c]) (ascii "\\z") = false := by
      rw [Bool.eq_false_iff, Ne, endsWith_skip_iff]
      rintro ⟨-, rfl⟩
      simp at hc
    have hprev : c ≠ 0x5C := by rcases hc with rfl | rfl | rfl <;> simp
    rw [List.cons_append, quote, if_neg (by rcases hb with rfl | rfl | rfl <;> simp)]
    by_cases hnl : b = 0x0A
    · rw [if_pos ⟨hnl, hprev, by simp [hend]⟩]
    · have hbq : b ≠ q := by rcases hb with rfl | rfl | rfl <;> rcases hq with rfl | rfl <;> simp
      rw [if_neg (by simp [hnl]), if_neg (by simp [hbq]), List.append_assoc]
      have hmem : 0x0A ∈ w := by simpa [Ne.symm hnl] using hlf
      have : (quote q b (text ++ [d] ++ [c, b]) (w ++ r)).token = .invalid := ih hw hmem hb
      rwa [List.append_assoc] at this

/-- Another newline behind `\z` breaks off the string, the first being the only one that the lexer
lets pass. -/
theorem quote_newline (hq : q = 0x27 ∨ q = 0x22) (he : e.Ok q) (hfirst : ¬ e.NewlineFirst) :
    (quote q prev text (e.bytes ++ r)).token = .invalid := by
  have hqb : q ≠ 0x5C := quote_ne_backslash hq
  cases e with
  | skip ws =>
    cases ws with
    | nil => exact absurd (show (0x0A : UInt8) ∉ [] from List.not_mem_nil) hfirst
    | cons c ws =>
      obtain ⟨hc, hws⟩ := List.forall_mem_cons.mp he
      rw [Element.bytes, List.cons_append, List.cons_append, List.cons_append,
        quote_escape hqb (by simp), quote_skip hq hc]
      have : (quote q c (text ++ [0x5C] ++ [0x7A, c]) (ws ++ r)).token = .invalid :=
        quote_blank hq hws (not_not.mp hfirst) hc
      rwa [List.append_assoc] at this
  | plain | escape | hex | octal | unicode | newline | crlf => exact absurd trivial hfirst

/-! ## The elements of a literal -/

/-- The last byte of two lists is that of the second, unless it is empty. -/
theorem getLastD_append (v w : Bytes) (d : UInt8) :
    (v ++ w).getLastD d = w.getLastD (v.getLastD d) := by
  induction v generalizing d with
  | nil => rfl
  | cons c v ih =>
    rw [List.cons_append, List.getLastD_cons, List.getLastD_cons]
    exact ih c

/-- The elements of a literal are kept, one behind the other, if each allows the newlines it has. By
induction on the elements, with `quote_element` as the step. -/
theorem quote_elements (hq : q = 0x27 ∨ q = 0x22) (hes : ∀ e ∈ es, e.Ok q)
    (hfirst : ∀ e ∈ es, e.NewlineFirst) :
    quote q prev text (literalBody es ++ r) =
      quote q ((literalBody es).getLastD prev) (text ++ literalBody es) r := by
  induction es generalizing prev text with
  | nil => simp [literalBody]
  | cons e es ih =>
    obtain ⟨he, hes⟩ := List.forall_mem_cons.mp hes
    obtain ⟨hf, hfirst⟩ := List.forall_mem_cons.mp hfirst
    have hbody : literalBody (e :: es) = e.bytes ++ literalBody es := List.flatMap_cons
    rw [hbody, List.append_assoc, quote_element hq he hf, ih hes hfirst, getLastD_append,
      List.append_assoc]

/-- One element that does not allow its newlines makes the literal invalid. The first of them breaks
off the string. -/
theorem quote_elements_newline (hq : q = 0x27 ∨ q = 0x22) (hes : ∀ e ∈ es, e.Ok q)
    (hfirst : ¬ ∀ e ∈ es, e.NewlineFirst) :
    (quote q prev text (literalBody es ++ r)).token = .invalid := by
  induction es generalizing prev text with
  | nil => exact absurd (by simp) hfirst
  | cons e es ih =>
    obtain ⟨he, hes⟩ := List.forall_mem_cons.mp hes
    have hbody : literalBody (e :: es) = e.bytes ++ literalBody es := List.flatMap_cons
    rw [hbody, List.append_assoc]
    by_cases hf : e.NewlineFirst
    · rw [quote_element hq he hf]
      exact ih hes fun hall => hfirst (List.forall_mem_cons.mpr ⟨hf, hall⟩)
    · exact quote_newline hq he hf

/-- Only the escape `\\` ends with a backslash, so that only behind it the quote does not end the
string. -/
theorem getLastD_bytes (he : e.Ok q) : e.bytes.getLastD d = 0x5C ↔ e = .escape 0x5C := by
  have hlast {w : Bytes} {c : UInt8} (hw : ∀ b ∈ c :: w, b ≠ 0x5C) : w.getLastD c ≠ 0x5C :=
    hw _ List.getLastD_mem_cons
  have hdigit {p : UInt8 → Bool} {c : UInt8} (hp : p 0x5C = false) (h : p c = true) :
      c ≠ 0x5C := by
    rintro rfl
    rw [hp] at h
    cases h
  cases e with
  | plain c => exact iff_of_false he.2.1 (by simp)
  | escape c => simp [Element.bytes]
  | hex a b => exact iff_of_false (hdigit rfl he.2) (by simp)
  | octal ds =>
    obtain ⟨hne, -, hds⟩ := he
    cases ds with
    | nil => exact absurd rfl hne
    | cons c ds =>
      rw [Element.bytes, List.getLastD_cons, List.getLastD_cons]
      exact iff_of_false (hlast fun b hb => hdigit rfl (hds b hb)) (by simp)
  | unicode hs =>
    rw [Element.bytes, List.getLastD_cons, List.getLastD_cons, List.getLastD_cons,
      List.getLastD_concat]
    simp
  | newline => simp [Element.bytes]
  | crlf => exact absurd he id
  | skip ws =>
    rw [Element.bytes, List.getLastD_cons, List.getLastD_cons]
    refine iff_of_false (hlast fun b hb => ?_) (by simp)
    rcases List.mem_cons.mp hb with rfl | hb
    · simp
    · rcases he b hb with rfl | rfl | rfl <;> simp

/-- The last byte before the closing quote is a backslash only if the last element is `\\`. -/
theorem getLastD_literalBody (hq : q ≠ 0x5C) (hes : ∀ e ∈ es, e.Ok q) :
    (literalBody es).getLastD q = 0x5C ↔ es.getLast? = some (.escape 0x5C) := by
  rcases List.eq_nil_or_concat es with rfl | ⟨front, e, rfl⟩
  · simpa [literalBody] using hq
  · have hbody : literalBody (front ++ [e]) = literalBody front ++ e.bytes := by simp [literalBody]
    rw [List.concat_eq_append] at hes ⊢
    rw [hbody, getLastD_append, getLastD_bytes (hes e (by simp)), List.getLast?_concat,
      Option.some.injEq]

/-- The scan of a literal whose closing quote is seen. -/
theorem quote_closed (hq : q = 0x27 ∨ q = 0x22) (hes : ∀ e ∈ es, e.Ok q)
    (hlast : es.getLast? ≠ some (.escape 0x5C)) (hfirst : ∀ e ∈ es, e.NewlineFirst) :
    quote q q [q] (literalBody es ++ q :: r) = ⟨.string, q :: (literalBody es ++ [q]), r⟩ := by
  have hqb : q ≠ 0x5C := quote_ne_backslash hq
  have hprev : (literalBody es).getLastD q ≠ 0x5C :=
    fun h => hlast ((getLastD_literalBody hqb hes).mp h)
  rw [quote_elements hq hes hfirst, quote, if_neg (by rcases hq with rfl | rfl <;> simp),
    if_neg (by rcases hq with rfl | rfl <;> simp), if_pos ⟨rfl, hprev⟩]
  rfl

/-- Where it is not, the text of a string token goes on behind it: a token that ends with the quote
of the literal has no `\\` in front of that, and no newline deep in a `\z`. -/
theorem quote_overruns (hq : q = 0x27 ∨ q = 0x22) (hes : ∀ e ∈ es, e.Ok q)
    (htok : (quote q q [q] (literalBody es ++ q :: r)).token = .string)
    (htext : (quote q q [q] (literalBody es ++ q :: r)).text = q :: (literalBody es ++ [q])) :
    es.getLast? ≠ some (.escape 0x5C) ∧ ∀ e ∈ es, e.NewlineFirst := by
  have hqb : q ≠ 0x5C := quote_ne_backslash hq
  by_cases hfirst : ∀ e ∈ es, e.NewlineFirst
  · refine ⟨fun hlast => ?_, hfirst⟩
    have hprev := (getLastD_literalBody hqb hes).mpr hlast
    rw [quote_elements hq hes hfirst, quote, if_neg (by rcases hq with rfl | rfl <;> simp),
      if_neg (by rcases hq with rfl | rfl <;> simp), if_neg (fun h => h.2 hprev)] at htok htext
    obtain ⟨body, hbody, -⟩ := quote_string q r htok
    have hlen := congrArg List.length (hbody.symm.trans htext)
    simp only [List.length_append, List.length_cons, List.length_nil] at hlen
    omega
  · rw [quote_elements_newline hq hes hfirst] at htok
    cases htok

end

end Scan

/-- A quote starts a string that ends at the same quote. -/
theorem scan_quote {q : UInt8} {r : Bytes} (hq : q = 0x27 ∨ q = 0x22) :
    scan (q :: r) = Scan.quote q q [q] r := by
  rcases hq with rfl | rfl <;> simp [scan, isSpace, Scan.lead, Lexer.punctuation, isDigit]

namespace Lexer

variable {σ : Type} {cs : CharSource σ} {q : UInt8} {src rest : Bytes} {es : List Element}
  {self : Lexer σ}

/-- **When a quoted string is one token.** A literal of the elements `es`, followed by any bytes, is
read as a string token with its text, and what follows is left, iff its last element is not `\\` and
no `\z` in it skips a newline but one right behind it. The lexer looks for `\z` in the two bytes
before a newline only, and for the backslash in the one byte before a quote. -/
theorem string_literal_iff (h : Ready cs src (q :: (literalBody es ++ q :: rest)) self)
    (hq : q = 0x27 ∨ q = 0x22) (hes : ∀ e ∈ es, e.Ok q) :
    ((nextToken cs self).1.1 = .string ∧
        (nextToken cs self).2.tokenString = q :: (literalBody es ++ [q]) ∧
        Ready cs src rest (nextToken cs self).2) ↔
      es.getLast? ≠ some (.escape 0x5C) ∧ ∀ e ∈ es, e.NewlineFirst := by
  obtain ⟨⟨htok, htext, hready⟩, -⟩ := nextToken_agrees h
  rw [scan_quote hq] at htok htext hready
  constructor
  · rintro ⟨hstring, hbody, -⟩
    exact Scan.quote_overruns hq hes (htok.symm.trans hstring) (htext.symm.trans hbody)
  · rintro ⟨hlast, hfirst⟩
    rw [Scan.quote_closed hq hes hlast hfirst] at htok htext hready
    exact ⟨htok, htext, hready⟩

/-- The literal `"a\n\z` newline `b"` before a semicolon. -/
theorem string_literal_example :
    (nextToken CharSource.ofBytes { source := ascii "\"a\\n\\z\nb\";" }).1.1 = .string ∧
      (nextToken CharSource.ofBytes { source := ascii "\"a\\n\\z\nb\";" }).2.tokenString =
        0x22 :: (literalBody [.plain 0x61, .escape 0x6E, .skip [0x0A], .plain 0x62] ++ [0x22]) ∧
      Ready CharSource.ofBytes (ascii "\"a\\n\\z\nb\";") (ascii ";")
        (nextToken CharSource.ofBytes { source := ascii "\"a\\n\\z\nb\";" }).2 :=
  (string_literal_iff (q := 0x22)
    (ready_ofBytes (ascii "\"a\\n\\z\nb\";")) (.inr rfl)
    (by decide +kernel)).mpr (by decide +kernel)

/-- The literal of one escaped backslash before a semicolon, and the one with two newlines behind
`\z`. -/
theorem string_literal_fails :
    (∀ e ∈ [Element.escape 0x5C], e.Ok 0x22) ∧
      (nextToken CharSource.ofBytes
        { source := 0x22 :: (literalBody [.escape 0x5C] ++ 0x22 :: ascii ";") }).1.1 ≠ .string ∧
      (∀ e ∈ [Element.skip [0x0A, 0x0A]], e.Ok 0x22) ∧
      (nextToken CharSource.ofBytes
        { source := 0x22 :: (literalBody [.skip [0x0A, 0x0A]] ++ 0x22 :: ascii ";") }).1.1 ≠
          .string := by
  decide +kernel

end Lexer

end Eltn
