import Eltn.Document.Parses

/-!
# Documents as texts

A document is written as bytes where its tokens stand in them, with whitespace and comments between
them (`Document.WrittenAs`). `ELTN_Parser_next` tells exactly the document that the bytes are
written for (`told_iff`), and comes to the end of the stream exactly where there is such a document;
and no bytes are written for two of them (`streamEnd_iff`).

Documents are written here in the tokens that the lexer has, not in those of the manual: a token is
a byte string that the lexer takes for it when it reads nothing else, so `t` and `tr` are `true` as
well; a string is what the unescaper makes of its token; and a semicolon may stand in front of a
definition, but not behind the last one.
-/

namespace Eltn

open ParserState

/-- The document is written as the bytes: they hold, in their order, the tokens that the document is
spelled with (`Document.Spelled`), with nothing between them but whitespace and comments (`Layout`).
What is a token, and of which kind, is what the lexer makes of it when it reads it alone
(`IsToken`): `t` counts as `true`. Semicolons stand only in front of a definition. -/
def Document.WrittenAs (d : Document) (b : Bytes) : Prop :=
  ∃ toks, d.Spelled toks ∧ Layout toks b

namespace Parser

section
variable {s : Stream} {b : Bytes} {l l' : Listing} {d d' : Document} {n : Nat}

/-! ## On tokens -/

/-- Nothing is reported behind the end, be it that of the stream or an error. -/
theorem reports_stop {τ : Type} (ts : TokenSource τ) (k m : Nat) : ∀ {p : Parser τ},
    (p.after ts k).hasNext = false → p.reports ts (k + m) = p.reports ts k := by
  induction k with
  | zero =>
    intro p h
    have hno : ¬ p.hasNext = true := by
      rw [show p.hasNext = false from h]
      exact Bool.false_ne_true
    cases m with
    | zero => rfl
    | succ m =>
      rw [Nat.zero_add]
      exact if_neg hno
  | succ k ih =>
    intro p h
    rw [after_succ] at h
    rw [Nat.succ_add, reports, reports, ih h]

/-- What is told up to the end of the stream does not depend on the number of calls. -/
theorem Emits.unique (h : Emits s l) (h' : Emits s l') : l = l' := by
  have hno {l : Listing} (h : Emits s l) :
      ((new s).after .stream (l.length + 1)).hasNext = false := by
    rw [ParserState.hasNext, h.2]
    rfl
  have hle {l l' : Listing} (h : Emits s l) (h' : Emits s l') (hlen : l.length ≤ l'.length) :
      l = l' := by
    obtain ⟨m, hm⟩ := Nat.exists_eq_add_of_le hlen
    have hstop := reports_stop .stream _ m (hno h)
    rw [Nat.add_right_comm, ← hm, h.1, h'.1] at hstop
    exact (List.append_cancel_right hstop).symm
  rcases Nat.le_total l.length l'.length with hlen | hlen
  · exact hle h h' hlen
  · exact (hle h' h hlen).symm

/-! ## On bytes -/

/-- The significant tokens of the stream of some bytes. -/
theorem items_stream (hlen : b.length < 2 ^ 31) :
    items (Scan.stream b).significant = Scan.tokens b := by
  have hready := Lexer.ready_ofBytes b
  rw [← hready.significant_eq, hready.lexemes_eq hlen]
  rfl

/-- Every significant token of the stream is one that the lexer gives. -/
theorem stream_read {x : Lexeme} (hx : x ∈ (Scan.stream b).significant) : x.Read :=
  Scan.lexemesUpTo_read b b.length b x (List.mem_filter.mp hx).1

/-- A text of less than 2³¹ bytes opens fewer than 2³² tables, so the depth never wraps around. -/
theorem stream_shallow (hlen : b.length < 2 ^ 31) : Shallow (Scan.stream b).significant := by
  have hle : (Scan.stream b).rest.length ≤ b.length := Scan.length_lexemesUpTo b b.length b
  exact shallow_of_length (by omega)

/-- A document that is written as some bytes is written as their tokens. -/
theorem writtenAs_iff (hlen : b.length < 2 ^ 31) :
    d.WrittenAs b ↔ d.Spelled (items (Scan.stream b).significant) := by
  rw [items_stream hlen]
  constructor
  · rintro ⟨toks, hspelled, hlayout⟩
    rwa [(layout_iff.mp hlayout).1]
  · exact fun h => ⟨_, h, layout_iff.mpr ⟨rfl, h.valid⟩⟩

/-- A document that is written as bytes is told by the parser on the tokens of the bytes. -/
theorem WrittenAs.emits (hlen : b.length < 2 ^ 31) (h : d.WrittenAs b) :
    ∃ l, Emits (Scan.stream b) l ∧ told l = d.events :=
  emits_of_spelled ((writtenAs_iff hlen).mp h) (fun _ => stream_read) (stream_shallow hlen)

/-- No bytes are written for two documents: the parser tells both of them, and it tells only one
sequence of events. -/
theorem WrittenAs.unique (hlen : b.length < 2 ^ 31) (h : d.WrittenAs b) (h' : d'.WrittenAs b) :
    d = d' := by
  obtain ⟨l, hemits, htold⟩ := WrittenAs.emits hlen h
  obtain ⟨l', hemits', htold'⟩ := WrittenAs.emits hlen h'
  obtain rfl := hemits.unique hemits'
  exact Document.events_inj (htold.symm.trans htold')

/-- What the parser on a stream tells, where it comes to the end of the stream. -/
theorem values_stream (h : ((new (Scan.stream b)).after .stream n).event = .streamEnd) :
    (new (Scan.stream b)).values .stream n = told ((new (Scan.stream b)).reports .stream n) := by
  obtain ⟨c, hrun, -, -⟩ := run_of_streamEnd h
  exact values_eq n (sourced_new trivial (Scan.lexemesUpTo_read b b.length b) (Scan.final_read b))
    (run_events_ne hrun (Nat.two_pow_pos 32))

/-- What is told is a matter of the states behind the calls. Sources do not count. -/
theorem values_congr {τ τ' : Type} {ts : TokenSource τ} {ts' : TokenSource τ'} (n : Nat) :
    ∀ {p : Parser τ} {q : Parser τ'},
      (∀ k, (p.after ts k).toParserState = (q.after ts' k).toParserState) →
      p.values ts n = q.values ts' n := by
  induction n with
  | zero => exact fun _ => rfl
  | succ n ih =>
    intro p q h
    have hfirst : p.toParserState = q.toParserState := h 0
    have hsecond : (p.next ts).toParserState = (q.next ts').toParserState := h 1
    have hrest := ih (p := p.next ts) (q := q.next ts') fun k => by
      rw [← after_succ, ← after_succ]
      exact h (k + 1)
    rw [values, values, hfirst, hsecond, hrest]

/-- The parser that reads chunks and the parser on the tokens of their bytes are in the same state
behind every number of calls. -/
theorem after_chunks {chunks : List Bytes} (h : chunks.flatten.length < 2 ^ 29) (k : Nat) :
    ((create.read (chunkReader chunks)).2.after (.ofLexer .ofBuffer) k).toParserState =
      ((new (Scan.stream chunks.flatten)).after .stream k).toParserState := by
  obtain ⟨hread, hbytes⟩ := read_feeds h
  have hbytes' : CharSource.ofBuffer.bytes (Buffer.new.read (chunkReader chunks)).2 =
      chunks.flatten := hbytes
  have hscan := after_scan .ofBuffer hread (by rw [hbytes']; omega) k
  rw [hbytes'] at hscan
  exact hscan

/-- The calls of `ELTN_Parser_next` on the chunks that a reader hands out tell the events of a
document, with the strings of its names, keys, numbers and strings, and then the end of the stream.
-/
def Tells (chunks : List Bytes) (d : Document) : Prop :=
  let p := (create.read (chunkReader chunks)).2
  (nextEvent^[d.events.length + 1] p).event = .streamEnd ∧
    p.values (.ofLexer .ofBuffer) (d.events.length + 1) = d.events ++ [(.streamEnd, [])]

section
variable {chunks : List Bytes}

/-- Telling a document is a matter of the parser on the tokens of the bytes. The number of calls is
known from the document: one for each of its events, and one for the end. -/
theorem tells_stream (h : chunks.flatten.length < 2 ^ 29) :
    Tells chunks d ↔
      ((new (Scan.stream chunks.flatten)).after .stream (d.events.length + 1)).event =
          .streamEnd ∧
        (new (Scan.stream chunks.flatten)).values .stream (d.events.length + 1) =
          d.events ++ [(.streamEnd, [])] := by
  rw [← congrArg ParserState.event (after_chunks h (d.events.length + 1)),
    ← values_congr _ (after_chunks h)]
  rfl

/-- Soundness. The events told are those of the document that the tokens derive to, and no two
documents share their events. -/
theorem writtenAs_of_tells (h : chunks.flatten.length < 2 ^ 29) (htells : Tells chunks d) :
    d.WrittenAs chunks.flatten := by
  obtain ⟨hend, hvalues⟩ := (tells_stream h).mp htells
  have hlen : chunks.flatten.length < 2 ^ 31 := by omega
  obtain ⟨d', hspelled, htold⟩ := spelled_of_streamEnd hend (fun _ => stream_read)
    (Scan.final_read _) (stream_shallow hlen)
  rw [values_stream hend, htold] at hvalues
  obtain rfl := Document.events_inj (List.append_cancel_right hvalues)
  exact (writtenAs_iff hlen).mpr hspelled

/-- Completeness. The tokens of the document derive, so the parser accepts them. -/
theorem tells_of_writtenAs (h : chunks.flatten.length < 2 ^ 29)
    (hwritten : d.WrittenAs chunks.flatten) : Tells chunks d := by
  obtain ⟨l, hemits, htold⟩ := WrittenAs.emits (by omega) hwritten
  have hlength : l.length = d.events.length := by rw [← htold, told, List.length_map]
  rw [tells_stream h, ← hlength]
  refine ⟨hemits.2, ?_⟩
  rw [values_stream hemits.2, hemits.1, told_append, htold]
  rfl

end

end

/-- **A document is told exactly where it is written.** For every list of chunks of less than 2²⁹
bytes together that a reader hands out, and every document: the calls of `ELTN_Parser_next` tell the
document exactly if the bytes are the document. -/
theorem told_iff (chunks : List Bytes) (h : chunks.flatten.length < 2 ^ 29) (d : Document) :
    Tells chunks d ↔ d.WrittenAs chunks.flatten :=
  ⟨writtenAs_of_tells h, tells_of_writtenAs h⟩

/-- The definition `a = "x"`, in two chunks and with a comment. -/
theorem told_iff_example :
    (Document.definitions [(ascii "a", .scalar (.string (ascii "x")))]).WrittenAs
      (ascii "a = --c\n \"x\"") :=
  (told_iff [ascii "a = --c", ascii "\n \"x\""] (by decide) _).mp
    ⟨by decide +kernel, by decide +kernel⟩

/-- **What is accepted is one document.** For every list of chunks of less than 2²⁹ bytes together
that a reader hands out: `ELTN_Parser_next` comes to the end of the stream, after some number of
calls, exactly if some document is written as the bytes; and whatever the bytes are, no two
documents are written as them. -/
theorem streamEnd_iff (chunks : List Bytes) (h : chunks.flatten.length < 2 ^ 29) :
    ((∃ n, (nextEvent^[n] (create.read (chunkReader chunks)).2).event = .streamEnd) ↔
        ∃ d : Document, d.WrittenAs chunks.flatten) ∧
      ∀ d d' : Document, d.WrittenAs chunks.flatten → d'.WrittenAs chunks.flatten → d = d' := by
  have hlen : chunks.flatten.length < 2 ^ 31 := by omega
  have hevent (n : Nat) : (nextEvent^[n] (create.read (chunkReader chunks)).2).event =
      ((new (Scan.stream chunks.flatten)).after .stream n).event :=
    congrArg ParserState.event (after_chunks h n)
  refine ⟨⟨?_, ?_⟩, fun d d' => WrittenAs.unique hlen⟩
  · rintro ⟨n, hn⟩
    obtain ⟨d, hspelled, -⟩ := spelled_of_streamEnd ((hevent n).symm.trans hn)
      (fun _ => stream_read) (Scan.final_read _) (stream_shallow hlen)
    exact ⟨d, (writtenAs_iff hlen).mpr hspelled⟩
  · rintro ⟨d, hwritten⟩
    obtain ⟨l, hemits, -⟩ := WrittenAs.emits hlen hwritten
    exact ⟨l.length + 1, (hevent _).trans hemits.2⟩

/-- Some document is written as `{ 1 }`, and no other is. -/
theorem streamEnd_iff_example :
    (∃ d : Document, d.WrittenAs (ascii "\x7b 1 \x7d")) ∧
      ∀ d d' : Document, d.WrittenAs (ascii "\x7b 1 \x7d") →
        d'.WrittenAs (ascii "\x7b 1 \x7d") → d = d' := by
  obtain ⟨hiff, hunique⟩ := streamEnd_iff [ascii "\x7b 1 \x7d"] (by decide)
  exact ⟨hiff.mp ⟨4, by decide +kernel⟩, hunique⟩

end Parser

end Eltn
