import Eltn.Buffer.Capacity
import Eltn.Buffer.Source
import Eltn.Lib.Streams

/-!
# Reading to the end

A reader is its results: texts without an error, and a last one that is `NULL` or comes with an
error code. `ensure_more_bytes` takes an error for the end of the input, although
`read_into_buffer` stored the text that came with it: the call gives `-1`, and the next one the
text (`nextChar_reading`). `read_gives_iff` says for which readers that loses nothing.
-/

namespace Eltn

namespace Buffer

/-- The texts that a reader returns, one after the other. -/
def texts (results : List ReaderResult) : Bytes := results.flatMap (·.text.getD [])

/-- Every text, when the buffer is empty, fits in its capacity or in one of less than 2³¹ bytes, the
capacity being the one that the texts before it have led to. -/
def Holds : Nat → List ReaderResult → Prop
  | _, [] => True
  | cap, result :: results =>
    let len := (result.text.getD []).length
    (len < cap ∨ len * 2 < 2 ^ 31) ∧ Holds (if len < cap then cap else len * 2) results

instance decidableHolds :
    (cap : Nat) → (results : List ReaderResult) → Decidable (Holds cap results)
  | _, [] => .isTrue trivial
  | _, _ :: results => @instDecidableAnd _ _ inferInstance (decidableHolds _ results)

/-- An open buffer with the results that its reader still has; the last one ends the input, by
`NULL` or by an error code, and the others have a text and none. -/
structure Reading (b : Buffer) (front : List ReaderResult) (last : ReaderResult) : Prop where
  sound : b.Sound
  eof : b.eof = false
  reader : b.reader = some (front ++ [last])
  holds : Holds b.capacity (front ++ [last])
  chunk : ∀ result ∈ front, result.text ≠ none ∧ result.errcode = 0
  ends : last.text = none ∨ last.errcode ≠ 0

section
variable {b : Buffer} {front : List ReaderResult} {last result : ReaderResult} {text : Bytes}

/-! ## One result -/

/-- The capacity that a write leaves: the old one if the text fits, else twice the text. A text that
has room leaves the block; for another one the new block is twice as long as what it has to hold. -/
theorem write_capacity (h : b.Sound) (heof : b.eof = false) (hnil : b.contents = [])
    (hfit : text.length < b.capacity ∨ text.length * 2 < 2 ^ 31) :
    (b.write true text).2.capacity =
      if text.length < b.capacity then b.capacity else text.length * 2 := by
  have hcap := h.capacity_eq
  have hsmall := h.small
  have hlt := h.length_lt
  have hlen : b.length = 0 := by rw [← h.length_contents, hnil]; rfl
  have hstore : ∀ b : Buffer, b.tail ≤ b.buffer.length → (b.store text).2.capacity = b.capacity :=
    fun b htail => congrArg toSize (store_bounds _ htail).1
  have hneed : (b.length + text.length) % 2 ^ 64 = text.length := by omega
  rcases Nat.lt_or_ge text.length b.capacity with hroom | hfull
  · rw [write_room heof (hneed.trans_lt hroom), if_pos hroom, hstore b h.tail_lt.le]
  · have hdouble := hfit.resolve_left (Nat.not_lt.mpr hfull)
    have htwice : text.length * 2 % 2 ^ 64 = text.length * 2 := by omega
    rw [write_full heof (hfull.trans_eq hneed.symm), if_neg (Nat.not_lt.mpr hfull), hneed, htwice]
    rcases setCapacity_spec true h hdouble with
      ⟨hno, -⟩ | ⟨-, b', hset, hsound, -, hcapacity, -⟩
    · rcases hno with hle | hno
      · omega
      · cases hno
    · rw [hset]
      exact (hstore b' hsound.tail_lt.le).trans hcapacity

/-- A text that fits is stored in an empty buffer, which grows to twice the text where that is as
long as the capacity. -/
theorem write_empty (h : b.Sound) (heof : b.eof = false) (hnil : b.contents = [])
    (hfit : text.length < b.capacity ∨ text.length * 2 < 2 ^ 31) :
    ∃ b', b.write true text = ((text.length : Int), b') ∧ b'.Sound ∧ b'.contents = text ∧
      b'.capacity = (if text.length < b.capacity then b.capacity else text.length * 2) ∧
      b'.eof = false ∧ b'.reader = b.reader := by
  have hlen : b.length = 0 := by rw [← h.length_contents, hnil]; rfl
  have hcap := write_capacity h heof hnil hfit
  rcases write_spec text true h (fun _ hfull => by omega) with
    ⟨hno, -⟩ | ⟨-, b', hwrite, hsound, hcontents, heof', hreader⟩
  · rw [heof] at hno
    rcases hno with hno | hno <;> cases hno
  · rw [hnil, List.nil_append] at hcontents
    rw [hwrite] at hcap
    exact ⟨b', hwrite, hsound, hcontents, hcap, heof'.trans heof, hreader⟩

/-- `read_into_buffer` moves a text of an empty buffer's reader into the buffer, which goes on
reading the others. -/
theorem readIntoBuffer_chunk (h : b.Reading (result :: front) last) (hnil : b.contents = []) :
    ∃ b', b.readIntoBuffer = (((result.text.getD []).length : Int), b') ∧ b'.Reading front last ∧
      b'.contents = result.text.getD [] := by
  obtain ⟨hnone, herr⟩ := h.chunk result List.mem_cons_self
  obtain ⟨text, htext⟩ := Option.ne_none_iff_exists'.mp hnone
  obtain ⟨hfit, hrest⟩ := h.holds
  rw [htext, Option.getD_some] at hfit hrest ⊢
  obtain ⟨b', hwrite, hsound, hcontents, hcap, heof, hreader⟩ := write_empty
    (b := { b with reader := some (front ++ [last]) }) (h.sound.setReader _) h.eof hnil hfit
  refine ⟨b', ?_, ⟨hsound, heof, hreader, ?_, ?_, h.ends⟩, hcontents⟩
  · rw [readIntoBuffer, callReader, h.reader]
    dsimp only [List.cons_append]
    rw [htext]
    dsimp only
    rw [hwrite, if_neg (not_not_intro herr)]
    exact if_neg (by dsimp only; omega)
  · rw [hcap]
    exact hrest
  · exact fun result hresult => h.chunk result (List.mem_cons_of_mem _ hresult)

/-- `read_into_buffer` stores the text of the last result, if there is one, closes the buffer and
reports failure. -/
theorem readIntoBuffer_last (h : b.Reading [] last) (hnil : b.contents = []) :
    ∃ b', b.readIntoBuffer = (-1, b') ∧ b'.Sound ∧ b'.eof = true ∧
      b'.contents = last.text.getD [] := by
  have hsound := h.sound.setReader (some [])
  have hcall : b.callReader = (last, { b with reader := some [] }) := by
    rw [callReader, h.reader]
    rfl
  rw [readIntoBuffer, hcall]
  dsimp only
  cases htext : last.text with
  | none =>
    refine ⟨_, rfl, ⟨hsound.size, hsound.small, hsound.head_lt, hsound.tail_lt⟩, rfl, ?_⟩
    exact hnil
  | some text =>
    have herr : last.errcode ≠ 0 :=
      h.ends.resolve_left (by rw [htext]; exact Option.some_ne_none _)
    obtain ⟨hfit, -⟩ := h.holds
    rw [htext, Option.getD_some] at hfit
    obtain ⟨b', hwrite, hsound', hcontents, -, -, -⟩ := write_empty
      (b := { b with reader := some [] }) hsound h.eof hnil hfit
    dsimp only
    rw [hwrite, if_pos herr]
    exact ⟨_, rfl, ⟨hsound'.size, hsound'.small, hsound'.head_lt, hsound'.tail_lt⟩, rfl, hcontents⟩

/-! ## One call -/

/-- The loop of `ensure_more_bytes` on an empty buffer ends with a byte, or it fails with the last
text in the buffer. -/
theorem refill_reading (fuel : Nat) (h : b.Reading front last) (hnil : b.contents = [])
    (hfuel : front.length + 2 ≤ fuel) :
    (∃ b' front', b.refill fuel = (true, b') ∧ b'.Reading front' last ∧ b'.contents ≠ [] ∧
      b'.contents ++ texts front' = texts front) ∨
    ∃ b', b.refill fuel = (false, b') ∧ texts front = [] ∧ b'.Sound ∧ b'.eof = true ∧
      b'.contents = last.text.getD [] := by
  induction front generalizing b fuel with
  | nil =>
    obtain ⟨fuel, rfl⟩ : ∃ k, fuel = k + 1 := ⟨fuel - 1, by omega⟩
    have hzero : b.length = 0 := by rw [← h.sound.length_contents, hnil]; rfl
    obtain ⟨b', hread, hsound, heof, hcontents⟩ := readIntoBuffer_last h hnil
    refine .inr ⟨b', ?_, rfl, hsound, heof, hcontents⟩
    rw [refill, if_pos hzero, hread]
    rfl
  | cons result front ih =>
    rw [List.length_cons] at hfuel
    obtain ⟨fuel, rfl⟩ : ∃ k, fuel = k + 2 := ⟨fuel - 2, by omega⟩
    have hzero : b.length = 0 := by rw [← h.sound.length_contents, hnil]; rfl
    obtain ⟨b', hread, h', hcontents⟩ := readIntoBuffer_chunk h hnil
    have hrefill : b.refill (fuel + 2) = b'.refill (fuel + 1) := by
      rw [refill, if_pos hzero, hread]
      exact if_neg (by dsimp only; omega)
    have htexts : texts (result :: front) = result.text.getD [] ++ texts front := rfl
    rw [hrefill, htexts]
    rcases eq_or_ne b'.contents [] with hnil' | hne
    · rw [← hcontents, hnil', List.nil_append]
      exact ih (fuel + 1) h' hnil' (by omega)
    · have hlen : b'.length ≠ 0 := by
        rw [← h'.sound.length_contents]
        exact mt List.eq_nil_of_length_eq_zero hne
      exact .inl ⟨b', front, by rw [refill, if_neg hlen], h', hne, by rw [hcontents]⟩

/-- `next_byte` leaves an open buffer to be read on. -/
theorem nextByte_reading (h : b.Reading front last) :
    ∃ b', b.nextByte true = (b.contents.head?, b') ∧ b'.Reading front last ∧
      b'.contents = b.contents.tail := by
  obtain ⟨b', hnext, hsound, hcontents, hcap, heof, hreader⟩ := nextByte_spec h.sound true
  refine ⟨b', hnext, ⟨hsound, heof.trans h.eof, hreader.trans h.reader, ?_, h.chunk, h.ends⟩,
    hcontents⟩
  rw [hcap]
  exact h.holds

/-- `ELTN_Buffer_next_char` on an open buffer gives the next of the bytes before the last text, and
behind them `-1`, with the last text stored. -/
theorem nextChar_reading (h : b.Reading front last) :
    (∃ c b' front', b.nextChar true = (some c, b') ∧ b'.Reading front' last ∧
      c :: (b'.contents ++ texts front') = b.contents ++ texts front) ∨
    ∃ b', b.nextChar true = (none, b') ∧ b.contents ++ texts front = [] ∧ b'.Sound ∧
      b'.eof = true ∧ b'.contents = last.text.getD [] := by
  have hbyte : ∀ {b : Buffer} {front : List ReaderResult}, b.Reading front last →
      b.contents ≠ [] → ∃ c b', b.nextByte true = (some c, b') ∧ b'.Reading front last ∧
        c :: (b'.contents ++ texts front) = b.contents ++ texts front := by
    intro b front h hne
    obtain ⟨b', hnext, h', hcontents⟩ := nextByte_reading h
    obtain ⟨c, rest, hb⟩ := List.exists_cons_of_ne_nil hne
    rw [hb] at hnext hcontents ⊢
    exact ⟨c, b', hnext, h', by rw [hcontents]; rfl⟩
  by_cases hempty : b.head = b.tail
  swap
  · obtain ⟨c, b', hnext, h', hbytes⟩ := hbyte h (mt h.sound.empty_iff.mpr hempty)
    exact .inl ⟨c, b', front, by rw [nextChar, if_neg hempty, hnext], h', hbytes⟩
  have hnil := h.sound.empty_iff.mp hempty
  have hmore : b.ensureMoreBytes = b.refill ((front ++ [last]).length + 2) := by
    rw [ensureMoreBytes, if_neg (by rw [h.eof]; exact Bool.false_ne_true), h.reader]
  rw [nextChar, if_pos hempty, hmore, hnil, List.nil_append]
  rcases refill_reading ((front ++ [last]).length + 2) h hnil
      (by rw [List.length_append]; omega) with
    ⟨b₁, front₁, hrefill, h₁, hne, htexts⟩ | ⟨b', hrefill, htexts, hsound, heof, hcontents⟩
  · obtain ⟨c, b', hnext, h', hbytes⟩ := hbyte h₁ hne
    rw [hrefill, ← htexts]
    exact .inl ⟨c, b', front₁, hnext, h', hbytes⟩
  · rw [hrefill]
    exact .inr ⟨b', rfl, htexts, hsound, heof, hcontents⟩

/-! ## All calls -/

/-- A closed buffer gives what it stores and then nothing, whatever its reader would still give. -/
theorem gives_of_eof (hsound : b.Sound) (heof : b.eof = true) :
    Streams.Gives (nextChar true) b b.contents := by
  have hinv : b.Sound ∧ b.eof = true ∧ b.contents = b.contents := ⟨hsound, heof, rfl⟩
  refine Streams.gives_of_invariant (fun b xs => b.Sound ∧ b.eof = true ∧ xs = b.contents) hinv ?_
  rintro b - ⟨hsound, heof, rfl⟩
  obtain ⟨b', hbyte, hsound', hcontents, -, heof', -⟩ := nextByte_spec hsound true
  have hnext : b.nextChar true = (b.contents.head?, b') := by
    rw [nextChar, ← hbyte]
    split
    · next hempty =>
      rw [ensureMoreBytes, if_pos heof]
      exact (if_pos hempty).symm
    · rfl
  rw [hnext]
  exact ⟨rfl, hsound', heof'.trans heof, hcontents.symm⟩

/-- An open buffer gives all texts exactly when the last one is empty: the text that comes with an
error is stored but the call that finds it returns no byte, and ends the input there. -/
theorem gives_reading_iff (h : b.Reading front last) :
    Streams.Gives (nextChar true) b (b.contents ++ texts front ++ last.text.getD []) ↔
      last.text.getD [] = [] := by
  generalize hbytes : b.contents ++ texts front = bytes
  induction bytes generalizing b front with
  | nil =>
    rw [List.nil_append, Streams.gives_iff]
    rcases nextChar_reading h with
      ⟨c, b', front', -, -, hcons⟩ | ⟨b', hnext, -, hsound, heof, hlast⟩
    · rw [hbytes] at hcons
      cases hcons
    · rw [hnext]
      constructor
      · rintro ⟨hnone, -⟩
        exact List.head?_eq_none_iff.mp hnone.symm
      · intro hnil
        have hgives := gives_of_eof hsound heof
        rw [hlast, hnil] at hgives
        rw [hnil]
        exact ⟨rfl, hgives⟩
  | cons c bytes ih =>
    rw [List.cons_append, Streams.gives_iff]
    rcases nextChar_reading h with ⟨c', b', front', hnext, h', hcons⟩ | ⟨b', -, hnil, -⟩
    · rw [hbytes] at hcons
      obtain ⟨rfl, htail⟩ := List.cons.inj hcons
      rw [hnext, List.head?_cons, List.tail_cons, and_iff_right rfl]
      exact ih h' htail
    · rw [hbytes] at hnil
      cases hnil

/-- The texts of a reader one of whose results is apart. -/
theorem texts_append_singleton : texts (front ++ [last]) = texts front ++ last.text.getD [] := by
  rw [texts, List.flatMap_append, List.flatMap_singleton]
  rfl

/-- **A failing reader loses nothing when its first call fails or no text comes with the error.**
After `ELTN_Buffer_read`, the calls of `ELTN_Buffer_next_char` give all texts of the reader and then
`-1` for ever exactly for those readers, whatever the number of texts, of sizes that the capacity
can hold. The text that comes with an error is stored behind the others, but the call that finds the
error returns `-1` before it. -/
theorem read_gives_iff (front : List ReaderResult) (last : ReaderResult)
    (hchunk : ∀ result ∈ front, result.text ≠ none ∧ result.errcode = 0)
    (hends : last.text = none ∨ last.errcode ≠ 0) (hholds : Holds initBufSize (front ++ [last])) :
    Streams.Gives (nextChar true) (new.read (front ++ [last])).2 (texts (front ++ [last])) ↔
      front = [] ∨ last.text.getD [] = [] := by
  have hreading : ({ new with reader := some (front ++ [last]) } : Buffer).Reading front last :=
    ⟨new_sound.setReader _, rfl, rfl, hholds, hchunk, hends⟩
  rw [read]
  cases front with
  | nil =>
    obtain ⟨b', hread, hsound, heof, hcontents⟩ := readIntoBuffer_last hreading new_contents
    have hgives := gives_of_eof hsound heof
    rw [hcontents] at hgives
    rw [hread, texts_append_singleton]
    exact iff_of_true hgives (.inl rfl)
  | cons result front =>
    obtain ⟨b', hread, h', hcontents⟩ := readIntoBuffer_chunk hreading new_contents
    have htexts : texts (result :: front ++ [last]) =
        b'.contents ++ texts front ++ last.text.getD [] := by
      rw [texts_append_singleton, hcontents]
      rfl
    rw [hread, htexts]
    exact (gives_reading_iff h').trans (or_iff_right (List.cons_ne_nil _ _)).symm

/-- A text and then the end of the input. -/
theorem read_gives_example :
    Streams.Gives (nextChar true)
        (new.read ([{ text := some [1, 2] }] ++ [{ text := none }])).2
        (texts ([{ text := some [1, 2] }] ++ [{ text := none }])) ↔
      [{ text := some [1, 2] }] = ([] : List ReaderResult) ∨ (none : Option Bytes).getD [] = [] :=
  read_gives_iff [{ text := some [1, 2] }] { text := none } (by decide) (by decide) (by decide)

/-- An error in the second call: its text comes after a `-1`. -/
theorem read_error :
    ¬ Streams.Gives (nextChar true)
        (new.read [{ text := some [65] }, { text := some [66], errcode := 5 }]).2
        (texts [{ text := some [65] }, { text := some [66], errcode := 5 }]) := by
  intro h
  exact absurd (h 1) (by decide +kernel)

end

end Buffer

end Eltn
