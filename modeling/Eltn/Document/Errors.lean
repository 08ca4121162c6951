import Eltn.Document.Printed
import Eltn.Parser.Completions

/-!
# Errors and documents

An error is reported at the first token of a text at which no document goes on (`error_first`): what
stands in front of it is the start of a text that a document is written as, and no text that a
document is written as has tokens of the same kinds up to and with it.
-/

namespace Eltn

open ParserState

/-! ## The front of a text -/

section
variable {b : Bytes} {xs ys ts : List Item}

/-- The front of a text that holds some of its tokens, and what may stand behind it instead: any
layout of other tokens, if it starts with a blank, which ends every token of the front. -/
theorem layout_front (h : Scan.tokens b = xs ++ ys) (hvalid : Valid xs) : ∃ f, f <+: b ∧
    ∀ {ts : List Item} {r : Bytes}, (∀ c ∈ r.head?, c = 0x20) → Layout ts r →
      Layout (xs ++ ts) (f ++ r) := by
  induction xs generalizing b with
  | nil => exact ⟨[], List.nil_prefix, fun _ hr => hr⟩
  | cons x xs ih =>
    obtain ⟨hx, hvalid⟩ := valid_cons.mp hvalid
    obtain ⟨gap, w, rest, rfl, hgap, hw, hnext, hrest⟩ := layout_of_tokens h hx
    obtain ⟨f, hf, hlayout⟩ := ih hrest hvalid
    refine ⟨gap ++ (w ++ f), ?_, fun {ts r} hspace hr => ?_⟩
    · rw [List.prefix_append_right_inj, List.prefix_append_right_inj]
      exact hf
    · have hnext' : Follows x.1 x.2 (f ++ r).head? := by
        cases f with
        | nil =>
          have hkind := hw.kind
          rw [List.nil_append]
          cases r with
          | nil => exact follows_none _ _
          | cons c r =>
            obtain rfl := hspace c rfl
            refine Scan.follows_insignificant hx ?_ (.inl rfl)
            intro hcomment
            simp [hcomment] at hkind
        | cons c f =>
          obtain ⟨r', rfl⟩ := hf
          exact hnext
      rw [List.append_assoc, List.append_assoc]
      exact .cons hgap hw hnext' (hlayout hspace hr)

end

/-- The tokens of completions stand in texts. -/
theorem endings_standing : ∀ x ∈ items endings, Standing x := by decide +kernel

/-- They are tokens as the lexer reads them, of one byte each, and none of them is a comment or the
end of the input. -/
theorem endings_read : ∀ x ∈ endings, x.Read ∧ x.token ≠ .eof ∧ x.token ≠ .error ∧
    x.isComment = false ∧ x.text.length = 1 := by
  have hread {x : Lexeme} (hne : x.token ≠ .integer) (hx : x.string = stringOf x.text) : x.Read :=
    ⟨hne, fun _ => hx⟩
  simp only [endings, List.forall_mem_cons]
  exact ⟨⟨hread (by decide) (by decide), by decide⟩, ⟨hread (by decide) (by decide), by decide⟩,
    ⟨hread (by decide) (by decide), by decide⟩, ⟨hread (by decide) (by decide), by decide⟩,
    ⟨hread (by decide) (by decide), by decide⟩, by simp⟩

namespace Parser

section
variable {s : Stream} {front more : List Lexeme} {t : Lexeme} {r : List Lexeme}

/-- Tokens on which calls come to the end of the stream are those of a document. -/
theorem spelled_of_finishes {toks : List Lexeme} (h : Finishes .streamStart 0 false toks)
    (htoks : ∀ x ∈ toks, x.Read ∧ x.token ≠ .eof ∧ x.token ≠ .error ∧ x.isComment = false)
    (hlen : toks.length < 2 ^ 32) : ∃ d : Document, d.Spelled (items toks) := by
  let s : Stream :=
    ⟨toks, Scan.final [], [], fun x hx => ⟨(htoks x hx).2.1, (htoks x hx).2.2.1⟩, rfl⟩
  have hsignificant : s.significant = toks :=
    List.filter_eq_self.mpr fun x hx => by rw [(htoks x hx).2.2.2]; rfl
  obtain ⟨l, c', hrun, hend, -⟩ := h s.final rfl
  rw [← hsignificant] at hrun
  obtain ⟨-, hat⟩ := run_reports hrun (new_at s)
  obtain ⟨d, hspelled, -⟩ := spelled_of_streamEnd (n := l.length) (hat.event_eq.trans hend)
    (fun x hx => (htoks x (hsignificant ▸ hx)).1) (Scan.final_read []) (shallow_of_length hlen)
  exact ⟨d, hsignificant ▸ hspelled⟩

/-- What is left of some tokens and another behind them: lists that agree up to a place agree there
with anything put behind both. -/
theorem take_succ_front {α : Type} {xs ys : List α} {k : Nat} (hk : k ≤ xs.length)
    (h : ys.take (k + 1) = xs.take (k + 1)) (a : α) :
    (xs ++ [a]).take (k + 1) <+: ys ++ [a] := by
  rcases Nat.lt_or_ge k xs.length with hlt | hge
  · rw [List.take_append_of_le_length hlt, ← h]
    have hfront : ys.take (k + 1) <+: ys := List.take_prefix _ _
    exact hfront.trans (List.prefix_append ys [a])
  · obtain rfl : k = xs.length := Nat.le_antisymm hk hge
    rw [List.take_of_length_le (Nat.le_succ _)] at h
    have hlen : ys.length ≤ xs.length + 1 := by
      by_contra hlt
      have := congrArg List.length h
      rw [List.length_take] at this
      omega
    rw [List.take_of_length_le hlen] at h
    rw [h]
    exact List.take_prefix _ _

/-- One-byte tokens with a space behind each take two bytes each, which bounds the text that
completes a document. -/
theorem length_spaced {ts : List Item} (h : ∀ x ∈ ts, x.2.length = 1) :
    (ts.flatMap fun x => x.2 ++ [0x20]).length = 2 * ts.length := by
  induction ts with
  | nil => rfl
  | cons x ts ih =>
    obtain ⟨hx, hts⟩ := List.forall_mem_cons.mp h
    rw [List.flatMap_cons, List.length_append, List.length_append, hx, ih hts]
    simp only [List.length_cons, List.length_nil]
    omega

/-- The tokens in front of an error are those of the front of a text that goes on to a document.
`more` are the tokens that complete it, each of which has a spelling of its own, and `f` is as much
of the bytes as holds the others. -/
theorem writtenAs_of_finishes {b : Bytes} {left : List Lexeme} (hlen : b.length < 2 ^ 29)
    (hfront : front ++ left = (Scan.stream b).significant) (hmore : ∀ x ∈ more, x ∈ endings)
    (hle : more.length ≤ front.length + 4) (h : Finishes .streamStart 0 false (front ++ more)) :
    ∃ (f r : Bytes) (d : Document), f <+: b ∧ Scan.tokens f = items front ∧
      (f ++ r).length < 2 ^ 31 ∧ d.WrittenAs (f ++ r) ∧
      Scan.tokens (f ++ r) = items front ++ items more := by
  have hcount : front.length ≤ b.length := by
    have hsignificant : (Scan.stream b).significant.length ≤ b.length :=
      (List.length_filter_le _ _).trans (Scan.length_lexemesUpTo b b.length b)
    rw [← hfront, List.length_append] at hsignificant
    omega
  have htoks : ∀ x ∈ front ++ more,
      x.Read ∧ x.token ≠ .eof ∧ x.token ≠ .error ∧ x.isComment = false := by
    intro x hx
    rcases List.mem_append.mp hx with hx | hx
    · have hmem : x ∈ (Scan.stream b).significant := hfront ▸ List.mem_append_left left hx
      obtain ⟨hrest, hcomment⟩ := List.mem_filter.mp hmem
      obtain ⟨heof, herr⟩ := (Scan.stream b).token_ne x hrest
      exact ⟨stream_read hmem, heof, herr, by simpa using hcomment⟩
    · obtain ⟨hread, heof, herr, hcomment, -⟩ := endings_read x (hmore x hx)
      exact ⟨hread, heof, herr, hcomment⟩
  obtain ⟨d, hspelled⟩ := spelled_of_finishes h htoks (by rw [List.length_append]; omega)
  rw [items_append] at hspelled
  obtain ⟨hvalid, -⟩ := valid_append.mp hspelled.valid
  have htokens : Scan.tokens b = items front ++ items left := by
    rw [← items_stream (by omega), ← hfront, items_append]
  obtain ⟨f, hf, hlayout⟩ := layout_front htokens hvalid
  have hstanding : ∀ x ∈ items more, Standing x := by
    intro x hx
    obtain ⟨y, hy, rfl⟩ := List.mem_map.mp hx
    exact endings_standing _ (List.mem_map_of_mem (hmore y hy))
  have hone : ∀ x ∈ items more, x.2.length = 1 := by
    intro x hx
    obtain ⟨y, hy, rfl⟩ := List.mem_map.mp hx
    exact (endings_read y (hmore y hy)).2.2.2.2
  have hempty : Layout (items front ++ []) (f ++ []) := hlayout (by simp) (.nil .nil)
  rw [List.append_nil, List.append_nil] at hempty
  have hwhole := hlayout (r := 0x20 :: _) (by simp) (layout_spaced hstanding).space
  refine ⟨f, _, d, hf, (layout_iff.mp hempty).1, ?_, ⟨_, hspelled, hwhole⟩,
    (layout_iff.mp hwhole).1⟩
  rw [List.length_append, List.length_cons, length_spaced hone, items, List.length_map]
  have := hf.length_le
  omega

/-- The kinds of the tokens of a text. -/
theorem kinds_stream {b : Bytes} (hlen : b.length < 2 ^ 31) :
    kinds (Scan.stream b).significant = (Scan.tokens b).map (·.1) := by
  rw [← items_stream hlen, items, List.map_map]
  rfl

end

/-- **An error is reported at the first token at which no document goes on.** For every list of
chunks of less than 2²⁹ bytes together that a reader hands out, and every number of calls of
`ELTN_Parser_next` that come to an error, there is a number `k` of tokens such that a front of the
bytes, whose tokens are the first `k` tokens of the bytes, can be continued to a text that a
document is written as and that starts with the same `k` tokens; a text that a document is written
as never starts with `k + 1` tokens of the same kinds as the bytes, or ends behind `k` of them where
the bytes do; and the line, the column and the text reported are those of the token behind the first
`k`, or of the end of the input. -/
theorem error_first (chunks : List Bytes) (h : chunks.flatten.length < 2 ^ 29) (n : Nat)
    (herr : (nextEvent^[n] (create.read (chunkReader chunks)).2).event = .error) :
    ∃ k ≤ (Scan.tokens chunks.flatten).length,
      (∃ (front more : Bytes) (d : Document), front <+: chunks.flatten ∧
        Scan.tokens front = (Scan.tokens chunks.flatten).take k ∧
        (front ++ more).length < 2 ^ 31 ∧ d.WrittenAs (front ++ more) ∧
        (Scan.tokens (front ++ more)).take k = (Scan.tokens chunks.flatten).take k) ∧
      (∀ (b : Bytes) (d : Document), b.length < 2 ^ 31 → d.WrittenAs b →
        ((Scan.tokens b).map (·.1)).take (k + 1) ≠
          ((Scan.tokens chunks.flatten).map (·.1)).take (k + 1)) ∧
      ∃ x, ((Scan.stream chunks.flatten).significant ++ [Scan.final chunks.flatten])[k]? = some x ∧
        (nextEvent^[n] (create.read (chunkReader chunks)).2).errline = x.line ∧
        (nextEvent^[n] (create.read (chunkReader chunks)).2).errcolumn = x.column ∧
        (nextEvent^[n] (create.read (chunkReader chunks)).2).textValue = x.text := by
  have hstate : (nextEvent^[n] (create.read (chunkReader chunks)).2).toParserState =
      ((new (Scan.stream chunks.flatten)).after .stream n).toParserState := after_chunks h n
  have hlen : chunks.flatten.length < 2 ^ 31 := by omega
  generalize chunks.flatten = b at h hlen hstate
  rw [hstate] at herr ⊢
  obtain ⟨front, t, r, hall, ⟨more, hmore, hle, hfinishes⟩, hblocks, hline, hcolumn, htext⟩ :=
    fails_first (stream_shallow hlen) herr
  have htokens := items_stream hlen
  have hk : front.length ≤ (Scan.stream b).significant.length := by
    have := congrArg List.length hall
    simp only [List.length_append, List.length_cons, List.length_nil] at this
    omega
  have hleft : front <+: (Scan.stream b).significant :=
    List.prefix_of_prefix_length_le (hall ▸ List.prefix_append front (t :: r))
      (List.prefix_append _ _) hk
  obtain ⟨left, hleft⟩ := hleft
  refine ⟨front.length, ?_, ?_, ?_, t, ?_, hline, hcolumn, htext⟩
  · rw [← htokens, items, List.length_map]
    exact hk
  · obtain ⟨f, more', d, hf, hfront, hshort, hwritten, hwhole⟩ :=
      writtenAs_of_finishes h hleft hmore hle hfinishes
    have hlength : (items front).length = front.length := List.length_map _
    have htake : (Scan.tokens b).take front.length = items front := by
      rw [← htokens, ← hleft, items_append, List.take_left' hlength]
    refine ⟨f, more', d, hf, hfront.trans htake.symm, hshort, hwritten, ?_⟩
    rw [hwhole, htake, List.take_left' hlength]
  · intro b' d hb' hwritten heq
    obtain ⟨l, hemits, -⟩ := WrittenAs.emits hb' hwritten
    refine hblocks ?_ hemits.2
    rw [← kinds_stream hlen, ← kinds_stream hb'] at heq
    have hstart := take_succ_front (by rw [kinds, List.length_map]; exact hk) heq Token.eof
    have hfront : kinds (front ++ [t]) =
        (kinds (Scan.stream b).significant ++ [Token.eof]).take (front.length + 1) := by
      have hfinal : [Token.eof] = kinds [(Scan.stream b).final] := rfl
      have hsplit : kinds (front ++ t :: r) = kinds (front ++ [t]) ++ kinds r := by
        rw [← kinds_append, ← List.append_cons]
      rw [hfinal, ← kinds_append, hall, hsplit, List.take_left']
      rw [kinds, List.length_map, List.length_append, List.length_singleton]
    rw [hfront, kinds_append]
    exact hstart
  · rw [show Scan.final b = (Scan.stream b).final from rfl, hall]
    simp

/-- In `{ a == 1 }`, in two chunks, three tokens stand in front of the error, and a front of the
bytes that holds just these goes on to a document. -/
theorem error_first_example :
    ∃ (front more : Bytes) (d : Document), front <+: ascii "\x7b a == 1 \x7d" ∧
      Scan.tokens front =
        [(.curlyOpen, ascii "\x7b"), (.name, ascii "a"), (.equals, ascii "=")] ∧
      (front ++ more).length < 2 ^ 31 ∧ d.WrittenAs (front ++ more) ∧
      (Scan.tokens (front ++ more)).take 3 =
        [(.curlyOpen, ascii "\x7b"), (.name, ascii "a"), (.equals, ascii "=")] := by
  obtain ⟨k, hk, ⟨front, more, d, hfront, hheld, hlen, hwritten, htokens⟩, -, x, hx, -, hcolumn,
    -⟩ := error_first [ascii "\x7b a =", ascii "= 1 \x7d"] (by decide) 3 (by decide +kernel)
  -- of the six tokens and the end of the input, only one stands in the column reported
  have hcount : (Scan.tokens (ascii "\x7b a == 1 \x7d")).length = 6 := by decide +kernel
  have hthree : ∀ k ≤ 6, (((Scan.stream (ascii "\x7b a == 1 \x7d")).significant ++
      [Scan.final (ascii "\x7b a == 1 \x7d")])[k]?).map (·.column) = some 6 → k = 3 := by
    decide +kernel
  have hsix : x.column = 6 := hcolumn.symm.trans (by decide +kernel)
  obtain rfl := hthree k (hk.trans hcount.le) ((congrArg _ hx).trans (congrArg some hsix))
  have hthird : (Scan.tokens (ascii "\x7b a == 1 \x7d")).take 3 =
      [(.curlyOpen, ascii "\x7b"), (.name, ascii "a"), (.equals, ascii "=")] := by
    decide +kernel
  exact ⟨front, more, d, hfront, hheld.trans hthird, hlen, hwritten, htokens.trans hthird⟩

end Parser

end Eltn
