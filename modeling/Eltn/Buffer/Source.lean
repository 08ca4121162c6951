import Eltn.Buffer.Fifo
import Eltn.Lexer.Basic

/-!
# The buffer as a source of characters

A buffer delivers the bytes it stores and then those its reader still hands out, until it is closed
(`Buffer.bytes`). A reader that hands out chunks and then `NULL` loses none of them, wherever one
ends (`nextChar_feeds`).
-/

namespace Eltn

namespace Buffer

/-- The bytes that the reader still hands out. -/
def pending (b : Buffer) : Bytes :=
  if b.eof then [] else (b.reader.getD []).flatMap (·.text.getD [])

/-- The bytes that the buffer still delivers. -/
def bytes (b : Buffer) : Bytes := b.contents ++ b.pending

/-- The buffer is sound and its reader hands out chunks without errors, of less than 2²⁹ bytes
together with those stored: its capacity stays an `int` when it grows. -/
structure Feeds (b : Buffer) : Prop where
  sound : b.Sound
  small : b.bytes.length < 2 ^ 29
  chunk : ∀ result ∈ b.reader.getD [], ∃ text, result = { text := some text }

section
variable {b : Buffer} {results : List ReaderResult} {text : Bytes}

/-- A closed buffer awaits nothing. -/
theorem pending_eof (h : b.eof = true) : b.pending = [] := by rw [pending, if_pos h]

/-- A buffer without a reader awaits nothing. -/
theorem pending_none (h : b.reader = none) : b.pending = [] := by
  rw [pending, h]
  split <;> rfl

/-- The first chunk of the reader. -/
theorem pending_cons (heof : b.eof = false)
    (h : b.reader = some ({ text := some text } :: results)) :
    b.pending = text ++ results.flatMap (·.text.getD []) := by
  rw [pending, heof, h]
  rfl

/-- Buffers with the same reader that are both open or both closed have the same pending bytes. -/
theorem pending_congr {b' : Buffer} (heof : b'.eof = b.eof) (hr : b'.reader = b.reader) :
    b'.pending = b.pending := by rw [pending, pending, heof, hr]

/-- The reader is no part of the ring. -/
theorem Sound.setReader (h : b.Sound) (reader : Option (List ReaderResult)) :
    Sound { b with reader := reader } := ⟨h.size, h.small, h.head_lt, h.tail_lt⟩

/-- Closing drops what the reader still has; the bytes stored are delivered. -/
theorem Feeds.close (h : b.Feeds) : b.close.Feeds ∧ b.close.bytes = b.contents := by
  have hbytes : b.close.bytes = b.contents := by
    rw [bytes, pending_eof (b := b.close) rfl, List.append_nil]
    rfl
  refine ⟨⟨⟨h.sound.size, h.sound.small, h.sound.head_lt, h.sound.tail_lt⟩, ?_, h.chunk⟩, hbytes⟩
  have hsmall := h.small
  rw [bytes, List.length_append] at hsmall
  rw [hbytes]
  omega

/-- Writing appends a text that keeps the buffer small, so that no capacity that it leads to is
beyond an `int`. -/
theorem write_feeds (hsound : b.Sound) (hsmall : (b.contents ++ text).length < 2 ^ 29)
    (heof : b.eof = false) : ∃ b', b.write true text = ((text.length : Int), b') ∧ b'.Sound ∧
      b'.contents = b.contents ++ text ∧ b'.eof = false ∧ b'.reader = b.reader := by
  rw [List.length_append, hsound.length_contents] at hsmall
  rcases write_spec text true hsound (fun _ _ => by omega) with
    ⟨hno, -⟩ | ⟨-, b', hwrite, hsound', hcontents, heof', hreader⟩
  · rw [heof] at hno
    exact absurd hno (by simp)
  · exact ⟨b', hwrite, hsound', hcontents, heof'.trans heof, hreader⟩

/-- `read_into_buffer` moves a chunk into the buffer, which feeds the lexer as before. The chunk
goes from what the reader has left to what the buffer holds, and their sum is the same. -/
theorem readIntoBuffer_cons (h : b.Feeds) (heof : b.eof = false)
    (hr : b.reader = some ({ text := some text } :: results)) :
    ∃ b', b.readIntoBuffer = ((text.length : Int), b') ∧ b'.Feeds ∧ b'.bytes = b.bytes ∧
      b'.contents = b.contents ++ text ∧ b'.eof = false ∧ b'.reader = some results := by
  have hsmall := h.small
  rw [bytes, pending_cons heof hr, ← List.append_assoc, List.length_append] at hsmall
  obtain ⟨b', hwrite, hsound, hcontents, heof', hreader⟩ :=
    write_feeds (b := { b with reader := some results }) (h.sound.setReader _)
      (Nat.lt_of_le_of_lt (Nat.le_add_right _ _) hsmall) heof
  have hbytes : b'.bytes = b.bytes := by
    rw [bytes, bytes, pending_cons heof hr, hcontents, List.append_assoc, pending, heof', hreader]
    rfl
  have hread : b.readIntoBuffer = ((text.length : Int), b') := by
    rw [readIntoBuffer, callReader, hr]
    simp only [hwrite]
    rw [if_neg (by simp), if_neg (by omega)]
  refine ⟨b', hread, ⟨hsound, hbytes ▸ h.small, ?_⟩, hbytes, hcontents, heof', hreader⟩
  intro result hresult
  rw [hreader] at hresult
  refine h.chunk result ?_
  rw [hr]
  exact List.mem_cons_of_mem _ hresult

/-- `read_into_buffer` closes the buffer after the last chunk. -/
theorem readIntoBuffer_nil (hr : b.reader = some []) : b.readIntoBuffer = (-1, b.close) := by
  rw [readIntoBuffer, callReader, hr]

/-- The loop of `ensure_more_bytes` on an empty buffer passes over empty chunks, and ends with a
byte or after the last chunk. By induction on the fuel: an empty chunk uses up one result of the
reader, so that as many turns as there are results, and two more, are enough. -/
theorem refill_feeds (fuel : Nat) : ∀ {b : Buffer} {results : List ReaderResult}, b.Feeds →
    b.eof = false → b.reader = some results → results.length + 2 ≤ fuel → b.contents = [] →
    ∃ more b', b.refill fuel = (more, b') ∧ b'.Feeds ∧ b'.bytes = b.bytes ∧
      if more then b'.contents ≠ [] else b'.bytes = [] := by
  induction fuel with
  | zero => exact fun _ _ _ hfuel => absurd hfuel (by omega)
  | succ fuel ih =>
    intro b results h heof hr hfuel hnil
    have hzero : b.length = 0 := by rw [← h.sound.length_contents, hnil]; rfl
    cases results with
    | nil =>
      obtain ⟨hclose, hbytes⟩ := h.close
      have hrefill : b.refill (fuel + 1) = (false, b.close) := by
        rw [refill, if_pos hzero, readIntoBuffer_nil hr]
        rfl
      refine ⟨false, b.close, hrefill, hclose, ?_, ?_⟩
      · rw [hbytes, bytes, pending, heof, hr]
        exact (List.append_nil _).symm
      · rw [if_neg (by simp), hbytes, hnil]
    | cons result results =>
      obtain ⟨text, rfl⟩ := h.chunk result (by rw [hr]; exact List.mem_cons_self)
      obtain ⟨b', hread, h', hbytes, hcontents, heof', hr'⟩ := readIntoBuffer_cons h heof hr
      rw [List.length_cons] at hfuel
      have hrefill : b.refill (fuel + 1) = b'.refill fuel := by
        rw [refill, if_pos hzero, hread]
        exact if_neg (by omega)
      rw [hrefill, ← hbytes]
      rw [hnil, List.nil_append] at hcontents
      rcases eq_or_ne text [] with rfl | htext
      · exact ih h' heof' hr' (by omega) hcontents
      · obtain ⟨fuel, rfl⟩ : ∃ k, fuel = k + 1 := ⟨fuel - 1, by omega⟩
        have hne : b'.length ≠ 0 := by
          rw [← h'.sound.length_contents, hcontents]
          exact mt List.eq_nil_of_length_eq_zero htext
        refine ⟨true, b', by rw [refill, if_neg hne], h', rfl, ?_⟩
        rw [if_pos rfl, hcontents]
        exact htext

/-- `next_byte` on a buffer that stores a byte delivers that one, and the others are left. -/
theorem nextByte_feeds (h : b.Feeds) (hne : b.contents ≠ []) :
    ∃ b', b.nextByte true = (b.bytes.head?, b') ∧ b'.Feeds ∧ b'.bytes = b.bytes.tail := by
  obtain ⟨b', hnext, hsound, hcontents, -, heof, hr⟩ := nextByte_spec h.sound true
  rw [if_pos rfl] at hcontents
  have hbytes : b'.bytes = b.bytes.tail := by
    rw [bytes, bytes, hcontents, pending_congr heof hr, List.tail_append_of_ne_nil hne]
  have hhead : b.bytes.head? = b.contents.head? := by
    rw [bytes, List.head?_append_of_ne_nil _ hne]
  refine ⟨b', by rw [hhead]; exact hnext, ⟨hsound, ?_, by rw [hr]; exact h.chunk⟩, hbytes⟩
  have hsmall := h.small
  rw [hbytes, List.length_tail]
  omega

/-- **`ELTN_Buffer_next_char` delivers the bytes stored and then those of the reader**, one a call,
and then none. A buffer with bytes gives its own; an empty one is first filled by `refill_feeds`,
unless it is closed or has no reader. -/
theorem nextChar_feeds (h : b.Feeds) :
    ∃ b', b.nextChar true = (b.bytes.head?, b') ∧ b'.Feeds ∧ b'.bytes = b.bytes.tail := by
  by_cases hempty : b.head = b.tail
  swap
  · rw [nextChar, if_neg hempty]
    exact nextByte_feeds h (mt h.sound.empty_iff.mpr hempty)
  have hnil := h.sound.empty_iff.mp hempty
  have hend : b.pending = [] → b.ensureMoreBytes = (false, b) → ∃ b',
      b.nextChar true = (b.bytes.head?, b') ∧ b'.Feeds ∧ b'.bytes = b.bytes.tail := by
    intro hpending hmore
    have hbytes : b.bytes = [] := by rw [bytes, hnil, hpending]; rfl
    refine ⟨b, ?_, h, by rw [hbytes]; rfl⟩
    rw [nextChar, if_pos hempty, hmore, hbytes]
    rfl
  cases heof : b.eof with
  | true => exact hend (pending_eof heof) (by rw [ensureMoreBytes, if_pos heof])
  | false =>
    cases hr : b.reader with
    | none =>
      refine hend (pending_none hr) ?_
      rw [ensureMoreBytes, if_neg (by rw [heof]; simp), hr]
    | some results =>
      obtain ⟨more, b', hrefill, h', hbytes, hmore⟩ :=
        refill_feeds (results.length + 2) h heof hr le_rfl hnil
      have hensure : b.ensureMoreBytes = (more, b') := by
        rw [ensureMoreBytes, if_neg (by rw [heof]; simp), hr]
        exact hrefill
      rw [nextChar, if_pos hempty, hensure, ← hbytes]
      cases more with
      | true => exact nextByte_feeds h' hmore
      | false =>
        have hbytes' : b'.bytes = [] := hmore
        refine ⟨b', ?_, h', by rw [hbytes']; rfl⟩
        rw [hbytes']
        rfl

end

end Buffer

/-- Buffers as sources of characters: the laws of a source are what `nextChar_feeds` says of a
consuming read. -/
def CharSource.ofBuffer : CharSource Buffer where
  nextChar := Buffer.nextChar true
  bytes := Buffer.bytes
  Ok := Buffer.Feeds
  nextChar_fst h := by
    obtain ⟨b', hnext, -⟩ := Buffer.nextChar_feeds h
    rw [hnext]
  bytes_nextChar h := by
    obtain ⟨b', hnext, -, hbytes⟩ := Buffer.nextChar_feeds h
    rw [hnext, hbytes]
  ok_nextChar h := by
    obtain ⟨b', hnext, hfeeds, -⟩ := Buffer.nextChar_feeds h
    rw [hnext]
    exact hfeeds

end Eltn
