import Eltn.Buffer.Fifo
import Eltn.Lib.Runs

/-!
# The recorded capacity

`bufsize` is an `int` next to a block whose size is a `size_t`. `capacity_tracks_iff` says when the
two stay the same over a sequence of operations: as long as every block that is granted has less
than 2³¹ bytes, and no write is so long that the sum of lengths, or its double, wraps around.
-/

namespace Eltn

namespace Buffer

/-- The capacity is the number of bytes last allocated, and the pointers are below it. -/
def Tracks (b : Buffer) : Prop :=
  b.capacity = b.buffer.length ∧ b.head < b.buffer.length ∧ b.tail < b.buffer.length

instance : DecidablePred Tracks := fun _ => inferInstanceAs (Decidable (_ ∧ _ ∧ _))

/-- The `size_t` that `ELTN_Buffer_write` compares with the capacity. -/
def need (b : Buffer) (text : Bytes) : Nat := (b.length + text.length) % 2 ^ 64

namespace Op

/-- The size of the block the operation asks the allocator for, if it does. All of it is computed in
64 bits, as the source does, so it can be less than what the bytes need. -/
def block (b : Buffer) : Op → Option Nat
  | .write text _ =>
    if b.eof ∨ b.need text < b.capacity ∨ b.need text * 2 % 2 ^ 64 ≤ b.length then none
    else some (b.need text * 2 % 2 ^ 64)
  | .setCapacity newcap _ => if newcap ≤ b.length then none else some newcap
  | .nextChar _ => none
  | .close => none

/-- Whether the allocator grants a block, for the operations that may ask for one. -/
def granted : Op → Bool
  | .write _ alloc => alloc
  | .setCapacity _ alloc => alloc
  | .nextChar _ => false
  | .close => false

/-- The length passed to a write is a `size_t`, and no allocator grants 2⁶³ bytes or more. -/
def Sized (b : Buffer) (op : Op) : Prop :=
  (∀ text alloc, op = .write text alloc → text.length < 2 ^ 64) ∧
    (op.granted = true → ∀ n ∈ op.block b, n < 2 ^ 63)

/-- The condition on an operation: a block that is granted has less than 2³¹ bytes, and a write that
is not refused has room in the buffer or in a block of less than 2³¹ bytes. -/
def Meets (b : Buffer) : Op → Prop
  | .write text alloc =>
    b.eof = true ∨ b.length + text.length < b.capacity ∨ (b.length + text.length) * 2 < 2 ^ 31 ∨
      (b.capacity ≤ b.need text ∧ (b.need text * 2 % 2 ^ 64 ≤ b.length ∨ alloc = false))
  | .setCapacity newcap alloc => newcap ≤ b.length ∨ alloc = false ∨ newcap < 2 ^ 31
  | .nextChar _ => True
  | .close => True

instance (b : Buffer) : DecidablePred (Meets b)
  | .write _ _ => inferInstanceAs (Decidable (_ ∨ _ ∨ _ ∨ _ ∧ _))
  | .setCapacity _ _ => inferInstanceAs (Decidable (_ ∨ _ ∨ _))
  | .nextChar _ => inferInstanceAs (Decidable True)
  | .close => inferInstanceAs (Decidable True)

end Op

section
variable {b : Buffer} {op : Op} {text : Bytes} {newcap : Nat}

/-- A sound ring tracks its capacity: the recorded size is that of the block. -/
theorem Sound.tracks (h : b.Sound) : b.Tracks := ⟨h.capacity_eq, h.head_lt, h.tail_lt⟩

/-! ## Operations that meet the condition -/

/-- What is kept by the operations that meet their conditions. -/
structure Kept (b : Buffer) : Prop where
  sound : b.Sound
  reader : b.reader = none

/-- A capacity that is not above the length is refused, and so is one that no block is granted for.
-/
theorem setCapacity_failed {alloc : Bool} (hno : newcap ≤ b.length ∨ alloc = false) :
    (b.setCapacity alloc newcap).1 = false := by
  unfold setCapacity
  dsimp only
  split
  · rfl
  next hlt => rw [hno.resolve_left hlt]; rfl

/-- A write that `ELTN_Buffer_set_capacity` refuses or that finds no memory fails. It fails before
it touches the block. -/
theorem write_failed {alloc : Bool} (hfull : b.capacity ≤ b.need text)
    (hno : b.need text * 2 % 2 ^ 64 ≤ b.length ∨ alloc = false) : (b.write alloc text).1 = -1 := by
  have hset := setCapacity_failed hno
  cases heof : b.eof with
  | true => rw [write, heof]; rfl
  | false =>
    have hnot : ¬ (b.setCapacity alloc (b.need text * 2 % 2 ^ 64)).1 = true := by
      rw [hset]
      exact Bool.false_ne_true
    exact congrArg Prod.fst ((write_full heof hfull).trans (if_neg hnot))

/-- **One operation** that meets its condition keeps the buffer sound, by cases on the operation:
this is the step of the run. -/
theorem Kept.apply (h : b.Kept) (hmeets : op.Meets b) : (op.apply b).Kept := by
  have hfits (hfit : ∀ n ∈ op.requested b, n < 2 ^ 31) : (op.apply b).Kept := by
    obtain ⟨hsound, hreader, -⟩ := apply_spec h.sound h.reader hfit
    exact ⟨hsound, hreader⟩
  have hfails (hfail : op.Failed b) : (op.apply b).Kept := by rwa [failed_eq hfail]
  cases op with
  | write text alloc =>
    rcases hmeets with heof | hroom | hsmall | ⟨hfull, hno⟩
    · exact hfits (by simp [Op.requested, heof])
    · exact hfits (by simp [Op.requested, hroom])
    · refine hfits fun n hn => ?_
      rw [Op.requested] at hn
      split at hn
      · cases hn
      · obtain rfl := Option.some.inj hn
        exact hsmall
    · exact hfails (write_failed hfull hno)
  | setCapacity newcap alloc =>
    rcases hmeets with hle | hno | hsmall
    · exact hfails (setCapacity_failed (.inl hle))
    · exact hfails (setCapacity_failed (.inr hno))
    · refine hfits fun n hn => ?_
      cases hn
      exact hsmall
  | nextChar consume => exact hfits (by simp [Op.requested])
  | close => exact hfits (by simp [Op.requested])

/-! ## Operations that do not -/

/-- What an `int` gives back as a size is small, or it is at the end of the memory. -/
theorem toSize_toInt_cases (newcap : Nat) :
    toSize (toInt newcap) < 2 ^ 31 ∨ 2 ^ 64 - 2 ^ 31 ≤ toSize (toInt newcap) := by
  unfold toSize toInt
  rw [Int.bmod_def]
  omega

/-- The new block has the size asked for, and the bytes are at its front. The recorded size is that
of the block converted to `int`, whatever becomes of it. -/
theorem setCapacity_granted (h : b.Sound) (hlt : b.length < newcap) :
    ∃ block : Bytes, block.length = newcap ∧ b.setCapacity true newcap = (true, { b with
      buffer := block, head := 0, tail := b.length, bufsize := toInt newcap }) := by
  unfold setCapacity
  rw [if_neg (by omega)]
  dsimp only
  by_cases hzero : b.length = 0
  · refine ⟨b.buffer.take newcap ++ List.replicate (newcap - b.buffer.length) 0, ?_, ?_⟩
    · rw [List.length_append, List.length_take, List.length_replicate]
      omega
    · simp only [hzero, if_true, Bool.not_true, Bool.false_eq_true, if_false]
  · refine ⟨(List.replicate newcap 0).overwrite 0 b.contents, ?_, ?_⟩
    · have hbytes := h.length_contents
      rw [Ring.length_overwrite, List.length_replicate]
      rw [List.length_replicate]
      omega
    · simp only [hzero, Bool.not_true, Bool.false_eq_true, if_false, h.copy_eq hlt hzero]

/-- A text of 2³² bytes or more is written beyond the block, which the recorded size is not a reason
to stop at, and `tail` stands outside of it then. -/
theorem store_overflow (h : b.Sound) (hlong : 2 ^ 32 ≤ text.length) :
    ¬ (b.store text).2.Tracks := by
  have hsmall := h.small
  have htail := h.tail_lt
  have hhead : toSize (b.bufsize - b.tail) = b.buffer.length - b.tail := by
    rw [h.size, ← Int.ofNat_sub htail.le, toSize_natCast (by omega)]
  rintro ⟨-, -, hlt⟩
  have hwrap : ¬ (b.tail + text.length : Int) < b.bufsize := by
    rw [h.size]
    omega
  rw [store, if_neg hwrap, hhead] at hlt
  dsimp only at hlt
  rw [Ring.length_overwrite_max (Nat.zero_le _), Ring.length_overwrite_max htail.le,
    List.length_take, List.length_drop] at hlt
  omega

/-- Storing keeps the recorded size, and the block is not shorter and not longer than the bytes ask
for. -/
theorem store_bounds (text : Bytes) (htail : b.tail ≤ b.buffer.length) :
    (b.store text).2.bufsize = b.bufsize ∧ b.buffer.length ≤ (b.store text).2.buffer.length ∧
      (b.store text).2.buffer.length ≤ max b.buffer.length (b.tail + text.length) := by
  rw [store]
  split
  · exact ⟨rfl, by rw [Ring.length_overwrite_max htail]; exact le_max_left _ _,
      (Ring.length_overwrite_max htail).le⟩
  · dsimp only
    rw [Ring.length_overwrite_max (Nat.zero_le _), Ring.length_overwrite_max htail,
      List.length_take, List.length_drop]
    generalize toSize (b.bufsize - b.tail) = headlen
    exact ⟨rfl, by omega, by omega⟩

/-- A block of 2³¹ bytes or more is not what the `int` next to it says, and no write that is shorter
than the memory changes that. -/
theorem store_mismatch (hlarge : 2 ^ 31 ≤ b.buffer.length) (hsize : b.buffer.length < 2 ^ 63)
    (hbuf : b.bufsize = toInt b.buffer.length) (htail : b.tail < 2 ^ 31)
    (hlen : b.tail + text.length < 2 ^ 64 - 2 ^ 31) : ¬ (b.store text).2.Tracks := by
  obtain ⟨hsame, hle, hmax⟩ := store_bounds (b := b) text (by omega)
  rintro ⟨hcap, -, -⟩
  rw [capacity, hsame, hbuf] at hcap
  rcases toSize_toInt_cases b.buffer.length with hlow | hhigh
  · omega
  · have hbound : (b.store text).2.buffer.length < 2 ^ 64 - 2 ^ 31 := by omega
    omega

/-- A write that does not meet the condition: the block it needs is no `int`, so that the recorded
size is another one, or the text does not fit in the block that it gets. Three ways lead there: the
sum of the lengths wraps around in `size_t`, or its double does, or the block is larger than an
`int` can say. -/
theorem write_mismatch {alloc : Bool} (h : b.Sound) (hsized : (Op.write text alloc).Sized b)
    (heof : b.eof = false) (hroom : b.capacity ≤ b.length + text.length)
    (hlarge : 2 ^ 31 ≤ (b.length + text.length) * 2)
    (hdone : b.capacity ≤ b.need text → b.length < b.need text * 2 % 2 ^ 64 ∧ alloc = true) :
    ¬ (b.write alloc text).2.Tracks := by
  have hsize : text.length < 2 ^ 64 := hsized.1 text alloc rfl
  have hlt := h.length_lt
  have hsmall := h.small
  have hcap := h.capacity_eq
  rcases Nat.lt_or_ge (b.need text) b.capacity with hneed | hfull
  · -- the sum of the lengths wraps around
    have hlong : 2 ^ 32 ≤ text.length := by
      unfold need at hneed
      omega
    rw [write_room heof hneed]
    exact store_overflow h hlong
  · obtain ⟨hgrow, rfl⟩ := hdone hfull
    obtain ⟨block, hblock, hset⟩ := setCapacity_granted h hgrow
    have hgranted : b.need text * 2 % 2 ^ 64 < 2 ^ 63 := by
      refine hsized.2 rfl _ ?_
      rw [Op.block, if_neg]
      · rfl
      · rintro (he | hroom' | hle)
        · rw [heof] at he
          cases he
        · exact absurd hroom' (Nat.not_lt.mpr hfull)
        · exact absurd hgrow (Nat.not_lt.mpr hle)
    have hwrite : b.write true text =
        (b.setCapacity true (b.need text * 2 % 2 ^ 64)).2.store text := by
      have hdone' : (b.setCapacity true (b.need text * 2 % 2 ^ 64)).1 = true := by rw [hset]
      exact (write_full heof hfull).trans (if_pos hdone')
    rw [hwrite]
    rcases Nat.lt_or_ge (b.need text * 2 % 2 ^ 64) (2 ^ 31) with hint | hover
    · -- the doubled sum wraps around
      have hlong : 2 ^ 32 ≤ text.length := by
        unfold need at hint hfull
        omega
      obtain ⟨hno, -⟩ | ⟨-, b', hset', hsound, -⟩ := setCapacity_spec true h hint
      · exact absurd hno (by simp; omega)
      · rw [hset']
        exact store_overflow hsound hlong
    · rw [hset]
      refine store_mismatch (by rw [hblock]; exact hover) (by rw [hblock]; exact hgranted)
        (by rw [hblock]) (by dsimp only; omega) ?_
      dsimp only
      unfold need at hgranted hfull
      omega

/-- **One operation** leaves a buffer whose recorded size is that of its block exactly if it meets
its condition. From right to left the operation keeps `Kept`; from left to right, by cases on the
operation, the size recorded is compared with the length of the new block. -/
theorem apply_tracks_iff (h : b.Kept) (hsized : op.Sized b) :
    (op.apply b).Tracks ↔ op.Meets b := by
  refine ⟨fun htracks => ?_, fun hmeets => (h.apply hmeets).sound.tracks⟩
  cases op with
  | write text alloc =>
    by_contra hno
    simp only [Op.Meets, not_or, Bool.not_eq_true, Nat.not_lt, not_and] at hno
    obtain ⟨heof, hroom, hlarge, hdone⟩ := hno
    refine write_mismatch h.sound hsized heof hroom hlarge (fun hfull => ?_) htracks
    obtain ⟨hgrow, halloc⟩ := hdone hfull
    exact ⟨Nat.not_le.mp hgrow, by simpa using halloc⟩
  | setCapacity newcap alloc =>
    rcases Nat.lt_or_ge b.length newcap with hlt | hle
    swap
    · exact .inl hle
    cases alloc with
    | false => exact .inr (.inl rfl)
    | true =>
      refine .inr (.inr (Nat.lt_of_not_le fun hlarge => ?_))
      have hsize : newcap < 2 ^ 63 := by
        refine hsized.2 rfl newcap ?_
        rw [Op.block, if_neg (Nat.not_le.mpr hlt)]
        rfl
      obtain ⟨block, hblock, hset⟩ := setCapacity_granted h.sound hlt
      rw [Op.apply, hset] at htracks
      obtain ⟨hcap, -, -⟩ := htracks
      rw [capacity, hblock] at hcap
      dsimp only at hcap
      rcases toSize_toInt_cases newcap with hlow | hhigh
      · omega
      · omega
  | nextChar consume => trivial
  | close => trivial

/-- A new buffer is sound and has no reader. -/
theorem new_kept : new.Kept := ⟨new_sound, rfl⟩

/-- **The recorded capacity is the allocated one as long as the blocks fit in an `int`.** Over any
operations on a new buffer, whatever the lengths and the outcomes of the allocations, the capacity
is the number of bytes last allocated with the pointers below it in every state exactly when every
operation meets its condition. The size of the block is computed as a `size_t` and recorded as an
`int`. -/
theorem capacity_tracks_iff (ops : List Op)
    (hsized : Runs.Along Op.apply (fun b op => op.Sized b) new ops) :
    (∀ k, (run new (ops.take k)).Tracks) ↔
      Runs.Along Op.apply (fun b op => op.Meets b) new ops := by
  have hstates : (∀ k, (run new (ops.take k)).Tracks) ↔
      new.Tracks ∧ Runs.Along Op.apply (fun b op => (op.apply b).Tracks) new ops :=
    Runs.forall_run_take_iff
  rw [hstates, and_iff_right new_sound.tracks]
  exact Runs.along_congr new_kept hsized (fun _ _ h hop => apply_tracks_iff h hop)
    fun _ _ h _ hmeets => h.apply hmeets

/-- A write and a change of capacity, both of which meet their conditions on the buffers they come
to. -/
theorem capacity_tracks_three :
    (∀ k, (run new ([.write [1, 2, 3] true, .setCapacity 8 true].take k)).Tracks) ↔
      Runs.Along Op.apply (fun b op => op.Meets b) new
        [.write [1, 2, 3] true, .setCapacity 8 true] := by
  refine capacity_tracks_iff [.write [1, 2, 3] true, .setCapacity 8 true] ?_
  refine ⟨⟨?_, fun _ n hn => ?_⟩, ⟨?_, fun _ n hn => ?_⟩, trivial⟩
  · rintro _ _ ⟨⟩
    decide
  · cases hn
  · rintro _ _ ⟨⟩
  · rw [Op.block] at hn
    split at hn
    · cases hn
    · cases hn
      decide

/-- A capacity of 2³¹ is recorded as one of 2⁶⁴ - 2³¹ bytes. The next write to it finds room without
end. -/
theorem capacity_drift : ¬ (run new [.setCapacity (2 ^ 31) true]).Tracks := by
  have hempty : new.length = 0 := by decide
  have hlt : new.length < 2 ^ 31 := by rw [hempty]; decide
  obtain ⟨block, hblock, hset⟩ := setCapacity_granted new_sound hlt
  have hrun : run new [.setCapacity (2 ^ 31) true] = (new.setCapacity true (2 ^ 31)).2 := rfl
  rw [hrun, hset]
  rintro ⟨hcap, -, -⟩
  rw [capacity, hblock] at hcap
  dsimp only at hcap
  exact absurd hcap (by decide)

end

end Buffer

end Eltn
