import Eltn.Buffer.Basic

/-!
# The buffer is a queue

A sound buffer (`Buffer.Sound`) keeps one cell of its ring free, and `Buffer.contents` is the list
of the bytes it stores. Each operation is described by what it does to that list; `fifo` puts the
descriptions together over every sequence of operations.
-/

namespace Eltn

/-- A length below 2⁶⁴ is a `size_t`. -/
theorem toSize_natCast {n : Nat} (h : n < 2 ^ 64) : toSize n = n := by
  unfold toSize
  omega

/-- A length below 2³¹ is an `int`. -/
theorem toInt_of_lt {n : Nat} (h : n < 2 ^ 31) : toInt n = n := by
  unfold toInt
  rw [Int.bmod_def]
  omega

namespace Buffer

/-- The recorded size is the size of the block, an `int`, and the pointers are inside the block.
Whatever allocates less than 2³¹ bytes keeps this. -/
structure Sound (b : Buffer) : Prop where
  size : b.bufsize = b.buffer.length
  small : b.buffer.length < 2 ^ 31
  head_lt : b.head < b.buffer.length
  tail_lt : b.tail < b.buffer.length

/-- The bytes stored. -/
def contents (b : Buffer) : Bytes := Ring.contents b.buffer b.head b.length

/-- A new buffer is a sound ring. -/
theorem new_sound : new.Sound where
  size := by rw [new, List.length_replicate]
  small := by rw [new, List.length_replicate]; decide
  head_lt := by rw [new, List.length_replicate]; decide
  tail_lt := by rw [new, List.length_replicate]; decide

/-- A new buffer stores nothing. -/
theorem new_contents : new.contents = [] := Ring.contents_zero

section
variable {b : Buffer} {len newcap : Nat} {text : Bytes} {alloc : Bool}

/-- The capacity of a sound ring is the size of its block. -/
theorem Sound.capacity_eq (h : b.Sound) : b.capacity = b.buffer.length := by
  have := h.small
  rw [capacity, h.size, toSize_natCast (by omega)]

/-- The length is the distance from the head to the tail, around the end of the block where the tail
lies behind it. -/
theorem Sound.length_eq (h : b.Sound) :
    b.length = if b.head ≤ b.tail then b.tail - b.head
      else b.buffer.length - (b.head - b.tail) := by
  have := h.small
  have := h.head_lt
  rw [length, h.size]
  split
  · rfl
  · rw [← Int.ofNat_sub (by omega), toSize_natCast (by omega)]

/-- One cell stays free. -/
theorem Sound.length_lt (h : b.Sound) : b.length < b.buffer.length := by
  have := h.head_lt
  have := h.tail_lt
  rw [h.length_eq]
  split <;> omega

/-- The tail is as many places behind the head as bytes are stored. -/
theorem Sound.tail_eq (h : b.Sound) : b.tail = Ring.index b.buffer.length b.head b.length := by
  have := h.head_lt
  have := h.tail_lt
  rw [h.length_eq, Ring.index]
  split <;> split <;> omega

/-- The length is the number of bytes stored. -/
theorem Sound.length_contents (h : b.Sound) : b.contents.length = b.length :=
  Ring.length_contents h.head_lt h.length_lt.le

/-- A buffer whose tail is `len` cells behind its head is sound and has that length. -/
theorem sound_of_tail (len : Nat) (hsize : b.bufsize = b.buffer.length)
    (hsmall : b.buffer.length < 2 ^ 31) (hhead : b.head < b.buffer.length)
    (hlen : len < b.buffer.length)
    (htail : b.tail = Ring.index b.buffer.length b.head len) : b.Sound ∧ b.length = len := by
  have h : b.Sound := ⟨hsize, hsmall, hhead, htail ▸ Ring.index_lt hhead hlen.le⟩
  refine ⟨h, ?_⟩
  rw [h.length_eq, htail, Ring.index]
  split <;> split at * <;> omega

/-! ## `ELTN_Buffer_set_capacity` -/

/-- The copy to a new block, in one or two pieces, puts the bytes at its front: one where they lie
behind `head`, two where they wrap around. -/
theorem Sound.copy_eq (h : b.Sound) (hcap : b.length < newcap) (hlen : b.length ≠ 0) :
    (if b.head < b.tail then
        (List.replicate newcap 0).overwrite 0 ((b.buffer.drop b.head).take b.length)
      else ((List.replicate newcap 0).overwrite 0 ((b.buffer.drop b.head).take
        (b.length - b.tail))).overwrite (b.length - b.tail) (b.buffer.take b.tail)) =
      (List.replicate newcap 0).overwrite 0 b.contents := by
  have hhead := h.head_lt
  have htail := h.tail_lt
  have hleneq := h.length_eq
  rw [contents, Ring.contents_pieces hhead]
  rcases Nat.lt_or_ge b.head b.tail with hht | hht
  · rw [if_pos hht.le] at hleneq
    rw [if_pos hht, if_pos (by omega)]
  · -- the end of the block and then its front
    have hne : b.head ≠ b.tail := by
      rintro heq
      rw [if_pos heq.le] at hleneq
      omega
    rw [if_neg (by omega)] at hleneq
    rw [if_neg (by omega)]
    have htake : ((b.buffer.drop b.head).take (b.length - b.tail)) = b.buffer.drop b.head := by
      rw [List.take_of_length_le]
      rw [List.length_drop]
      omega
    have hpiece : b.length - b.tail = 0 + (b.buffer.drop b.head).length := by
      rw [List.length_drop]
      omega
    rw [htake, hpiece,
      Ring.overwrite_append (by rw [List.length_drop, List.length_replicate]; omega)]
    split
    · have htail0 : b.tail = 0 := by omega
      rw [htail0, List.take_zero, List.append_nil, List.take_of_length_le]
      rw [List.length_drop]
      omega
    · congr 3
      omega

/-- A block with `len` bytes at its front, the head at the first of them and the tail behind the
last, is sound and stores these bytes. -/
theorem sound_front (block : Bytes) (hblock : block.length = newcap) (hcap : newcap < 2 ^ 31)
    (hlen : len < newcap) :
    { b with buffer := block, head := 0, tail := len, bufsize := toInt newcap }.Sound ∧
      { b with buffer := block, head := 0, tail := len, bufsize := toInt newcap }.contents =
        Ring.contents block 0 len ∧
      { b with buffer := block, head := 0, tail := len, bufsize := toInt newcap }.capacity =
        newcap := by
  subst hblock
  obtain ⟨hsound, hlength⟩ := sound_of_tail len
    (b := { b with buffer := block, head := 0, tail := len, bufsize := toInt block.length })
    (by dsimp only; exact toInt_of_lt hcap) hcap (Nat.zero_lt_of_lt hlen) hlen
    (by dsimp only; rw [Ring.index, Nat.zero_add, if_pos hlen])
  exact ⟨hsound, by rw [contents, hlength], hsound.capacity_eq⟩

/-- `ELTN_Buffer_set_capacity` refuses or fails and changes nothing, or it keeps the bytes in a
block of the new capacity. An empty buffer is reallocated in place; any other is copied to the front
of a fresh block (`Sound.copy_eq`). -/
theorem setCapacity_spec (alloc : Bool) (h : b.Sound) (hcap : newcap < 2 ^ 31) :
    (newcap ≤ b.length ∨ alloc = false) ∧ b.setCapacity alloc newcap = (false, b) ∨
      (b.length < newcap ∧ alloc = true) ∧ ∃ b', b.setCapacity alloc newcap = (true, b') ∧
        b'.Sound ∧ b'.contents = b.contents ∧ b'.capacity = newcap ∧ b'.eof = b.eof ∧
        b'.reader = b.reader := by
  unfold setCapacity
  rcases Nat.lt_or_ge b.length newcap with hlt | hge
  swap
  · exact .inl ⟨.inl hge, if_pos hge⟩
  cases alloc with
  | false => exact .inl ⟨.inr rfl, by rw [if_neg (by omega)]; rfl⟩
  | true =>
    refine .inr ⟨⟨hlt, rfl⟩, ?_⟩
    rw [if_neg (by omega)]
    dsimp only
    rcases eq_or_ne b.length 0 with hzero | hne
    · obtain ⟨hsound, hcontents, hcapacity⟩ := sound_front (b := b)
        (b.buffer.take newcap ++ List.replicate (newcap - b.buffer.length) 0)
        (by rw [List.length_append, List.length_take, List.length_replicate]; omega) hcap
        (Nat.zero_lt_of_lt hlt)
      refine ⟨_, by simp only [hzero, if_true, Bool.not_true, Bool.false_eq_true, if_false],
        hsound, ?_, hcapacity, rfl, rfl⟩
      rw [hcontents, contents, hzero, Ring.contents_zero, Ring.contents_zero]
    · have hbytes := h.length_contents
      obtain ⟨hsound, hcontents, hcapacity⟩ := sound_front (b := b)
        ((List.replicate newcap 0).overwrite 0 b.contents)
        (by rw [Ring.length_overwrite, List.length_replicate]; rw [List.length_replicate]; omega)
        hcap hlt
      refine ⟨_, by simp only [hne, Bool.not_true, Bool.false_eq_true, if_false, h.copy_eq hlt hne],
        hsound, ?_, hcapacity, rfl, rfl⟩
      rw [hcontents, ← hbytes]
      exact Ring.contents_overwrite_zero

/-! ## `ELTN_Buffer_write` -/

/-- Storing bytes for which there is room appends them, in one piece or in two; one cell must stay
free, since a full ring would look empty. Both branches of the source are one `Ring.storeAt`, so
that the ring's lemmas say what is stored. -/
theorem store_spec (text : Bytes) (h : b.Sound) (hroom : b.length + text.length < b.capacity) :
    ∃ b', b.store text = ((text.length : Int), b') ∧ b'.Sound ∧ b'.contents = b.contents ++ text ∧
      b'.capacity = b.capacity ∧ b'.eof = b.eof ∧ b'.reader = b.reader := by
  have hsmall := h.small
  have htail := h.tail_lt
  have hhead := h.head_lt
  rw [h.capacity_eq] at hroom ⊢
  have hstore : b.store text = ((text.length : Int), { b with
      buffer := Ring.storeAt b.buffer b.tail text
      tail := Ring.index b.buffer.length b.tail text.length }) := by
    have hhl : toSize (b.bufsize - b.tail) = b.buffer.length - b.tail := by
      rw [h.size, ← Int.ofNat_sub htail.le, toSize_natCast (by omega)]
    rw [store, h.size, Ring.storeAt, Ring.index]
    split
    · rw [if_pos (by omega), if_pos (by omega)]
    · rw [if_neg (by omega), if_neg (by omega)]
      rw [h.size] at hhl
      dsimp only
      rw [hhl]
      congr 2
      omega
  have hblock : (Ring.storeAt b.buffer b.tail text).length = b.buffer.length :=
    Ring.length_storeAt htail (by omega)
  obtain ⟨hsound, hlength⟩ := sound_of_tail (b.length + text.length) (b := { b with
      buffer := Ring.storeAt b.buffer b.tail text
      tail := Ring.index b.buffer.length b.tail text.length })
    (by rw [hblock]; exact h.size) (by rw [hblock]; exact hsmall) (by rw [hblock]; exact hhead)
    (by rw [hblock]; exact hroom)
    (by rw [hblock, h.tail_eq, Ring.index_index hhead (by omega)])
  refine ⟨_, hstore, hsound, ?_, ?_, rfl, rfl⟩
  · rw [contents, hlength, contents]
    dsimp only
    rw [h.tail_eq]
    exact Ring.contents_storeAt hhead (by omega)
  · rw [hsound.capacity_eq]
    exact hblock

/-- `ELTN_Buffer_write` where there is room. -/
theorem write_room (heof : b.eof = false)
    (hroom : (b.length + text.length) % 2 ^ 64 < b.capacity) :
    b.write alloc text = b.store text := by
  rw [write, heof]
  dsimp only
  rw [if_neg Bool.false_ne_true, if_neg (Nat.not_le.mpr hroom)]

/-- `ELTN_Buffer_write` where there is none: it asks for twice what is needed, and stores the text
in the block that it gets. -/
theorem write_full (heof : b.eof = false)
    (hfull : b.capacity ≤ (b.length + text.length) % 2 ^ 64) :
    b.write alloc text =
      if (b.setCapacity alloc ((b.length + text.length) % 2 ^ 64 * 2 % 2 ^ 64)).1 = true then
        (b.setCapacity alloc ((b.length + text.length) % 2 ^ 64 * 2 % 2 ^ 64)).2.store text
      else (-1, b) := by
  rw [write, heof]
  dsimp only
  rw [if_neg Bool.false_ne_true, if_pos hfull]
  cases (b.setCapacity alloc ((b.length + text.length) % 2 ^ 64 * 2 % 2 ^ 64)).1 <;> rfl

/-- `ELTN_Buffer_write` fails and changes nothing, or it appends the text. It fails on a closed
buffer and where the block is refused; `hfit` bounds the block that it may ask for. Behind a refused
or granted `setCapacity` the store is the one of `store_spec`. -/
theorem write_spec (text : Bytes) (alloc : Bool) (h : b.Sound)
    (hfit : b.eof = false → b.capacity ≤ b.length + text.length →
      (b.length + text.length) * 2 < 2 ^ 31) :
    (b.eof = true ∨ alloc = false) ∧ b.write alloc text = (-1, b) ∨
      b.eof = false ∧ ∃ b', b.write alloc text = ((text.length : Int), b') ∧ b'.Sound ∧
        b'.contents = b.contents ++ text ∧ b'.eof = b.eof ∧ b'.reader = b.reader := by
  have hcap := h.capacity_eq
  have hsmall := h.small
  have hlt := h.length_lt
  cases heof : b.eof with
  | true => exact .inl ⟨.inl rfl, by rw [write, heof]; rfl⟩
  | false =>
    replace hfit := hfit heof
    have hneed : (b.length + text.length) % 2 ^ 64 = b.length + text.length := by omega
    rcases Nat.lt_or_ge (b.length + text.length) b.capacity with hroom | hfull
    · obtain ⟨b', hstore, hsound, hcontents, -, he, hr⟩ := store_spec text h hroom
      refine .inr ⟨rfl, b', ?_, hsound, hcontents, he.trans heof, hr⟩
      rw [write_room heof (hneed.trans_lt hroom), hstore]
    · have htwice : (b.length + text.length) * 2 % 2 ^ 64 = (b.length + text.length) * 2 := by
        have := hfit hfull
        omega
      rw [write_full heof (hfull.trans_eq hneed.symm), hneed, htwice]
      rcases setCapacity_spec alloc h (hfit hfull) with
        ⟨hno, hset⟩ | ⟨-, b', hset, hsound, hcontents, hcapacity, he, hr⟩
      · rw [hset]
        exact .inl ⟨.inr (hno.resolve_left (by omega)), rfl⟩
      · have hlength : b'.length = b.length := by
          rw [← hsound.length_contents, hcontents, h.length_contents]
        obtain ⟨b'', hstore, hsound', hcontents', -, he', hr'⟩ :=
          store_spec text hsound (by omega)
        rw [hset]
        refine .inr ⟨rfl, b'', ?_, hsound', by rw [hcontents', hcontents],
          he'.trans (he.trans heof), hr'.trans hr⟩
        rw [if_pos rfl, hstore]

/-! ## `ELTN_Buffer_next_char` -/

/-- An empty buffer gives no byte. -/
theorem Sound.empty_iff (h : b.Sound) : b.head = b.tail ↔ b.contents = [] := by
  have hhead := h.head_lt
  have htail := h.tail_lt
  rw [← List.length_eq_zero_iff, h.length_contents, h.length_eq]
  split <;> omega

/-- `next_byte` gives the first byte and takes it off when it consumes; an empty buffer gives none
and stays empty. Taking a byte off moves `head` by one and leaves the cells as they are. -/
theorem nextByte_spec (h : b.Sound) (consume : Bool) :
    ∃ b', b.nextByte consume = (b.contents.head?, b') ∧ b'.Sound ∧
      b'.contents = (if consume then b.contents.tail else b.contents) ∧
      b'.capacity = b.capacity ∧ b'.eof = b.eof ∧ b'.reader = b.reader := by
  unfold nextByte
  by_cases hempty : b.head = b.tail
  · have hnil := h.empty_iff.mp hempty
    refine ⟨b, ?_, h, ?_, rfl, rfl, rfl⟩
    · rw [if_pos hempty, hnil]
      rfl
    · rw [hnil]
      cases consume <;> rfl
  · have hhead := h.head_lt
    have hsmall := h.small
    have hlt := h.length_lt
    have hne : b.contents ≠ [] := mt h.empty_iff.mpr hempty
    obtain ⟨n, hn⟩ : ∃ n, b.length = n + 1 := by
      rw [← List.length_pos_iff, h.length_contents] at hne
      exact ⟨b.length - 1, by omega⟩
    have hcontents : b.contents = b.buffer[b.head] :: Ring.contents b.buffer
        (Ring.index b.buffer.length b.head 1) n := by
      rw [contents, hn]
      exact Ring.contents_succ hhead (by omega)
    rw [if_neg hempty, hcontents, List.head?_cons, List.tail_cons,
      List.getD_eq_getElem?_getD, List.getElem?_eq_getElem hhead, Option.getD_some]
    cases consume with
    | false => exact ⟨b, rfl, h, hcontents, rfl, rfl, rfl⟩
    | true =>
      have hnext : (if ((b.head + 1 : Nat) : Int) ≥ b.bufsize then 0 else b.head + 1) =
          Ring.index b.buffer.length b.head 1 := by
        rw [h.size, Ring.index]
        split <;> split <;> omega
      obtain ⟨hsound, hlength⟩ := sound_of_tail n
        (b := { b with head := Ring.index b.buffer.length b.head 1 }) h.size hsmall
        (Ring.index_lt hhead (by omega)) (by dsimp only; omega)
        (by dsimp only; rw [Ring.index_index hhead (by omega), h.tail_eq, hn, Nat.add_comm 1 n])
      refine ⟨_, by rw [hnext]; rfl, hsound, ?_, rfl, rfl, rfl⟩
      rw [contents, hlength]
      rfl

/-- With no reader `ELTN_Buffer_next_char` is `next_byte`, since there is nothing to fill an empty
buffer from. -/
theorem nextChar_eq (hr : b.reader = none) (consume : Bool) :
    b.nextChar consume = b.nextByte consume := by
  have hmore : b.ensureMoreBytes = (false, b) := by
    rw [ensureMoreBytes, hr]
    split <;> rfl
  rw [nextChar, hmore]
  split
  · next hempty => rw [nextByte, if_pos hempty]; rfl
  · rfl

end

/-! ## Sequences of operations -/

/-- An operation on a buffer, with the outcome of its allocation: those of the interface that change
what the buffer stores. -/
inductive Op where
  | write (text : Bytes) (alloc : Bool)
  | setCapacity (newcap : Nat) (alloc : Bool)
  | nextChar (consume : Bool)
  | close
deriving DecidableEq, Repr

namespace Op

/-- The buffer after the operation, whatever the operation returned. -/
def apply (b : Buffer) : Op → Buffer
  | .write text alloc => (b.write alloc text).2
  | .setCapacity newcap alloc => (b.setCapacity alloc newcap).2
  | .nextChar consume => (b.nextChar consume).2
  | .close => b.close

/-- The capacity the operation asks for, if it does. A write asks for twice what it needs, and only
where that reaches the capacity. -/
def requested (b : Buffer) : Op → Option Nat
  | .write text _ =>
    if b.eof ∨ b.length + text.length < b.capacity then none
    else some ((b.length + text.length) * 2)
  | .setCapacity newcap _ => some newcap
  | .nextChar _ => none
  | .close => none

/-- The text of a write that returned its length. -/
def accepted (b : Buffer) : Op → Bytes
  | .write text alloc => if (b.write alloc text).1 = text.length then text else []
  | _ => []

/-- The byte a consuming read returned. -/
def consumed (b : Buffer) : Op → Bytes
  | .nextChar true => (b.nextChar true).1.toList
  | _ => []

/-- The operation is a write or a change of capacity that returned failure. The others do not report
any. -/
def Failed (b : Buffer) : Op → Prop
  | .write text alloc => (b.write alloc text).1 = -1
  | .setCapacity newcap alloc => (b.setCapacity alloc newcap).1 = false
  | _ => False

/-- The operation is a consuming read. -/
def Consumes : Op → Prop
  | .nextChar consume => consume = true
  | _ => False

end Op

/-- The buffer after a sequence of operations. -/
def run (b : Buffer) (ops : List Op) : Buffer := ops.foldl Op.apply b

/-- The texts of the writes that returned their length, one after the other. -/
def accepted : Buffer → List Op → Bytes
  | _, [] => []
  | b, op :: ops => op.accepted b ++ accepted (op.apply b) ops

/-- The bytes consumed, in order. -/
def consumed : Buffer → List Op → Bytes
  | _, [] => []
  | b, op :: ops => op.consumed b ++ consumed (op.apply b) ops

/-- Every capacity that is asked for is an `int`. -/
def Fits : Buffer → List Op → Prop
  | _, [] => True
  | b, op :: ops => (∀ n ∈ op.requested b, n < 2 ^ 31) ∧ Fits (op.apply b) ops

instance decidableFits : (b : Buffer) → (ops : List Op) → Decidable (Fits b ops)
  | _, [] => .isTrue trivial
  | b, op :: ops => @instDecidableAnd _ _ inferInstance (decidableFits (op.apply b) ops)

section
variable {b : Buffer} {op : Op} {ops : List Op}

/-- A failed operation changes nothing, on every buffer, sound or not. A write fails before anything
is stored, and a new capacity before the old block is let go. -/
theorem failed_eq (h : op.Failed b) : op.apply b = b := by
  have hset : ∀ alloc newcap, (b.setCapacity alloc newcap).1 = false →
      (b.setCapacity alloc newcap).2 = b := by
    intro alloc newcap h
    unfold setCapacity at h ⊢
    dsimp only at h ⊢
    split at h
    · next hle => rw [if_pos hle]
    next hle =>
    rw [if_neg hle]
    split at h
    · next halloc => rw [if_pos halloc]
    · split at h <;> cases h
  have hstore : ∀ (b : Buffer) text, (b.store text).1 = text.length := by
    intro b text
    rw [store]
    split <;> rfl
  cases op with
  | write text alloc =>
    have hwrite : (b.write alloc text).1 = -1 := h
    show (b.write alloc text).2 = b
    cases heof : b.eof with
    | true => rw [write, heof]; rfl
    | false =>
      rcases Nat.lt_or_ge ((b.length + text.length) % 2 ^ 64) b.capacity with hroom | hfull
      · rw [write_room heof hroom, hstore] at hwrite
        omega
      · rw [write_full heof hfull] at hwrite ⊢
        split at hwrite
        · rw [hstore] at hwrite
          omega
        · next hno => rw [if_neg hno]
  | setCapacity newcap alloc => exact hset alloc newcap h
  | nextChar consume => cases h
  | close => cases h

/-- What one operation does to the bytes stored: what it takes off and what is left then are what
was stored and what it appends. This is the step of the run. -/
theorem apply_spec (h : b.Sound) (hr : b.reader = none) (hfit : ∀ n ∈ op.requested b, n < 2 ^ 31) :
    (op.apply b).Sound ∧ (op.apply b).reader = none ∧
      op.consumed b ++ (op.apply b).contents = b.contents ++ op.accepted b := by
  cases op with
  | write text alloc =>
    have hfit' : b.eof = false → b.capacity ≤ b.length + text.length →
        (b.length + text.length) * 2 < 2 ^ 31 := by
      intro heof hfull
      refine hfit _ ?_
      rw [Op.requested, if_neg (by simp [heof, hfull])]
      rfl
    rcases write_spec text alloc h hfit' with
      ⟨-, hwrite⟩ | ⟨-, b', hwrite, hsound, hcontents, -, hr'⟩
    · have hno : ¬ (-1 : Int) = text.length := by omega
      simp only [Op.apply, Op.consumed, Op.accepted, hwrite, if_neg hno]
      exact ⟨h, hr, by simp⟩
    · simp only [Op.apply, Op.consumed, Op.accepted, hwrite, if_true]
      exact ⟨hsound, hr'.trans hr, hcontents⟩
  | setCapacity newcap alloc =>
    rcases setCapacity_spec alloc h (hfit newcap rfl) with
      ⟨-, hset⟩ | ⟨-, b', hset, hsound, hcontents, -, -, hr'⟩
    · simp only [Op.apply, Op.consumed, Op.accepted, hset]
      exact ⟨h, hr, by simp⟩
    · simp only [Op.apply, Op.consumed, Op.accepted, hset]
      exact ⟨hsound, hr'.trans hr, by simp [hcontents]⟩
  | nextChar consume =>
    obtain ⟨b', hnext, hsound, hcontents, -, -, hr'⟩ := nextByte_spec h consume
    rw [← nextChar_eq hr] at hnext
    simp only [Op.apply, Op.accepted, hnext, List.append_nil]
    refine ⟨hsound, hr'.trans hr, ?_⟩
    cases consume with
    | false => exact hcontents
    | true =>
      simp only [Op.consumed, hnext, hcontents, if_true]
      cases b.contents <;> rfl
  | close => exact ⟨⟨h.size, h.small, h.head_lt, h.tail_lt⟩, hr, (List.append_nil _).symm⟩

/-- A run is the first operation and the run of the others. -/
theorem run_cons : run b (op :: ops) = run (op.apply b) ops := rfl

/-- A run keeps the ring sound and the bytes in order. By induction on the operations, with
`apply_spec` as the step. -/
theorem run_spec (h : b.Sound) (hr : b.reader = none) (hfit : Fits b ops) :
    (run b ops).Sound ∧ (run b ops).reader = none ∧
      consumed b ops ++ (run b ops).contents = b.contents ++ accepted b ops := by
  induction ops generalizing b with
  | nil => exact ⟨h, hr, by simp [run, consumed, accepted]⟩
  | cons op ops ih =>
    obtain ⟨hop, hops⟩ := hfit
    obtain ⟨hsound, hreader, hbytes⟩ := apply_spec h hr hop
    obtain ⟨hsound', hreader', hbytes'⟩ := ih hsound hreader hops
    refine ⟨hsound', hreader', ?_⟩
    rw [run_cons, consumed, accepted, List.append_assoc, hbytes', ← List.append_assoc, hbytes,
      List.append_assoc]

/-- Operations other than consuming reads consume nothing, however many there are. -/
theorem consumed_eq_nil (h : ∀ op ∈ ops, ¬ op.Consumes) : consumed b ops = [] := by
  induction ops generalizing b with
  | nil => rfl
  | cons op ops ih =>
    obtain ⟨hop, hops⟩ := List.forall_mem_cons.mp h
    have hnone : op.consumed b = [] := by
      cases op with
      | nextChar consume =>
        cases consume with
        | true => exact absurd rfl hop
        | false => rfl
      | write _ _ => rfl
      | setCapacity _ _ => rfl
      | close => rfl
    rw [consumed, hnone, ih hops]
    rfl

/-- A read that consumes returns what an earlier one that does not consume returned, unless that one
found no byte and something was written since. -/
theorem nextChar_peek (h : b.Sound) (hr : b.reader = none) (hfit : Fits b ops)
    (hops : ∀ op ∈ ops, ¬ op.Consumes)
    (hkept : (b.nextChar false).1 ≠ none ∨ accepted b ops = []) :
    ((run b ops).nextChar true).1 = (b.nextChar false).1 := by
  obtain ⟨hsound, hreader, hbytes⟩ := run_spec h hr hfit
  obtain ⟨_, hnext, -⟩ := nextByte_spec h false
  obtain ⟨_, hnext', -⟩ := nextByte_spec hsound true
  rw [consumed_eq_nil hops, List.nil_append] at hbytes
  rw [nextChar_eq hr, hnext] at hkept ⊢
  rw [nextChar_eq hreader, hnext', hbytes]
  rcases hkept with hstored | hnone
  · cases hb : b.contents with
    | nil => rw [hb] at hstored; exact absurd rfl hstored
    | cons c s => rfl
  · rw [hnone, List.append_nil]

/-- **`ELTN_Buffer` is a FIFO queue of bytes.** After every sequence of operations on a new buffer,
whatever its allocations do and as long as the capacities asked for are `int`s: the bytes consumed
and the bytes stored are the texts of the writes that succeeded; the length is the number of bytes
stored and stays below the capacity; an operation that fails changes nothing; a read that consumes
returns what the last one that did not returned, while no byte was consumed and the buffer, if it
was empty, took none; and a read returns the first byte stored, if there is one, and takes it off if
it consumes. -/
theorem fifo (ops : List Op) (hfit : Fits new ops) :
    consumed new ops ++ (run new ops).contents = accepted new ops ∧
      (run new ops).length = (run new ops).contents.length ∧
      (run new ops).length < (run new ops).capacity ∧
      (∀ op : Op, op.Failed (run new ops) →
        (op.apply (run new ops)).contents = (run new ops).contents ∧
        (op.apply (run new ops)).capacity = (run new ops).capacity) ∧
      (∀ mid, Fits (run new ops) mid → (∀ op ∈ mid, ¬ op.Consumes) →
        (((run new ops).nextChar false).1 ≠ none ∨ accepted (run new ops) mid = []) →
        ((run (run new ops) mid).nextChar true).1 = ((run new ops).nextChar false).1) ∧
      ∀ consume, ((run new ops).nextChar consume).1 = (run new ops).contents.head? ∧
        ((run new ops).nextChar consume).2.contents =
          if consume then (run new ops).contents.tail else (run new ops).contents := by
  obtain ⟨hsound, hreader, hbytes⟩ := run_spec new_sound rfl hfit
  rw [new_contents, List.nil_append] at hbytes
  refine ⟨hbytes, hsound.length_contents.symm, ?_, ?_, ?_, ?_⟩
  · rw [hsound.capacity_eq]
    exact hsound.length_lt
  · intro op hop
    rw [failed_eq hop]
    exact ⟨rfl, rfl⟩
  · intro mid hmid hops hkept
    exact nextChar_peek hsound hreader hmid hops hkept
  · intro consume
    obtain ⟨b', hnext, -, hcontents, -⟩ := nextByte_spec hsound consume
    rw [nextChar_eq hreader, hnext]
    exact ⟨rfl, hcontents⟩

/-- A shrunken buffer that wraps and grows: one write is refused for want of memory, and the bytes
of the others come out in their order. -/
theorem fifo_example :
    consumed new [.setCapacity 4 true, .write [1, 2, 3] true, .nextChar true, .nextChar true,
        .write [4, 5] true, .nextChar false, .write [6] false, .write [6, 7] true,
        .nextChar true] ++
      (run new [.setCapacity 4 true, .write [1, 2, 3] true, .nextChar true, .nextChar true,
        .write [4, 5] true, .nextChar false, .write [6] false, .write [6, 7] true,
        .nextChar true]).contents =
      accepted new [.setCapacity 4 true, .write [1, 2, 3] true, .nextChar true, .nextChar true,
        .write [4, 5] true, .nextChar false, .write [6] false, .write [6, 7] true,
        .nextChar true] :=
  (fifo [.setCapacity 4 true, .write [1, 2, 3] true, .nextChar true, .nextChar true,
    .write [4, 5] true, .nextChar false, .write [6] false, .write [6, 7] true, .nextChar true]
    (by decide)).1

end

end Buffer

end Eltn
