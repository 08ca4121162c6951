import Eltn.Convert.Flips
import Eltn.Lib.Blocks

/-!
# Flips in their buffer

The flips on a buffer with nothing behind it, where a read or a store outside has no result. The
swaps of a turn are one byte too far, so the last turn leaves the buffer: a flip has a result on the
empty buffer only (`flips_aligned_iff`).
-/

namespace Eltn

/-- `swap_bytes` on two bytes of the buffer, which has no result where one of them is not in the
buffer. -/
def swapBytesIn (i j : Nat) (buf : Bytes) : Option Bytes := do
  let a ← buf[i]?
  let b ← buf[j]?
  let buf ← Blocks.store b i buf
  Blocks.store a j buf

/-- The loop of the two flips on a buffer of its own size. It ends without a result where a turn
does, and where `i`, an `int`, overflows. -/
def flipLoopIn (step : Nat) (swaps : Nat → Bytes → Option Bytes) (length : Nat) :
    Nat → Nat → Bytes → Option Bytes
  | 0, _, buf => some buf
  | fuel + 1, i, buf =>
    if i < length then do
      let buf ← swaps i buf
      if i + step ≤ intMax then flipLoopIn step swaps length fuel (i + step) buf else none
    else some buf

/-- `flip_bytes_4` on a whole buffer. -/
def flipBytes4In (buf : Bytes) : Option Bytes :=
  flipLoopIn 4 (fun i buf => (swapBytesIn (i + 1) (i + 4) buf).bind (swapBytesIn (i + 2) (i + 3)))
    buf.length buf.length 0 buf

/-- `flip_bytes_2` on a whole buffer. -/
def flipBytes2In (buf : Bytes) : Option Bytes :=
  flipLoopIn 2 (fun i buf => swapBytesIn (i + 1) (i + 2) buf) buf.length buf.length 0 buf

/-- The bytes of each aligned group of `n` stand in reverse order. -/
def Reversed (n : Nat) (buf buf' : Bytes) : Prop :=
  buf'.length = buf.length ∧
    ∀ i < buf.length, buf'[i]? = buf[i / n * n + (n - 1 - i % n)]?

/-- A flip of groups of `n` bytes stays in its buffer, reverses each group and is its own
inverse. -/
def FlipAligned (n : Nat) (flip : Bytes → Option Bytes) (buf : Bytes) : Prop :=
  ∃ buf', flip buf = some buf' ∧ Reversed n buf buf' ∧ flip buf' = some buf

section
variable {i j step length fuel : Nat} {swaps : Nat → Bytes → Option Bytes} {buf buf' : Bytes}

/-- Inside the buffer the swap is that of the source, and elsewhere it has no result. -/
theorem swapBytesIn_eq (i j : Nat) (buf : Bytes) : swapBytesIn i j buf =
    if i < buf.length ∧ j < buf.length then some (swapBytes i j buf) else none := by
  rw [swapBytesIn]
  rcases Nat.lt_or_ge i buf.length with hi | hi
  · rcases Nat.lt_or_ge j buf.length with hj | hj
    · have hset : j < (buf.set i buf[j]).length := by rwa [List.length_set]
      rw [if_pos ⟨hi, hj⟩, List.getElem?_eq_getElem hi, List.getElem?_eq_getElem hj]
      simp only [Option.bind_eq_bind, Option.bind_some, Blocks.store, if_pos hi, if_pos hset]
      rw [swapBytes, List.getD_eq_getElem _ _ hi, List.getD_eq_getElem _ _ hj]
    · rw [if_neg (by omega), List.getElem?_eq_none hj, List.getElem?_eq_getElem hi]
      rfl
  · rw [if_neg (by omega), List.getElem?_eq_none hi]
    rfl

/-- To swap two bytes leaves the length. -/
theorem length_swapBytes (i j : Nat) (buf : Bytes) : (swapBytes i j buf).length = buf.length := by
  rw [swapBytes, List.length_set, List.length_set]

/-- So does a swap that stays inside. -/
theorem length_swapBytesIn (h : swapBytesIn i j buf = some buf') : buf'.length = buf.length := by
  rw [swapBytesIn_eq] at h
  split at h
  · cases h
    exact length_swapBytes i j buf
  · cases h

/-- Turns that leave a buffer which ends at their last byte leave every buffer in the end: the last
turn reaches one byte beyond the word that it starts at. -/
theorem flipLoopIn_none (hstep : 0 < step)
    (hout : ∀ i buf, buf.length ≤ i + step → swaps i buf = none)
    (hlen : ∀ i buf buf', swaps i buf = some buf' → buf'.length = buf.length)
    (hi : i < buf.length) (hfuel : buf.length ≤ i + fuel) :
    flipLoopIn step swaps buf.length fuel i buf = none := by
  induction fuel generalizing i buf with
  | zero => omega
  | succ fuel ih =>
    rw [flipLoopIn, if_pos hi]
    cases hswaps : swaps i buf with
    | none => rfl
    | some buf' =>
      have hinside : i + step < buf.length := by
        by_contra hle
        rw [hout i buf (by omega)] at hswaps
        cases hswaps
      have hsame := hlen i buf buf' hswaps
      simp only [Option.bind_eq_bind, Option.bind_some]
      split
      · rw [← hsame]
        exact ih (by omega) (by omega)
      · rfl

/-- On any bytes at all the flip of four bytes reads outside of its block. -/
theorem flipBytes4In_none (hbuf : buf ≠ []) : flipBytes4In buf = none := by
  refine flipLoopIn_none (Nat.succ_pos 3) (fun i buf hle => ?_) (fun i buf buf' h => ?_)
    (List.length_pos_iff.mpr hbuf) (Nat.le_add_left _ _)
  · rw [swapBytesIn_eq, if_neg (by omega)]
    rfl
  · obtain ⟨mid, hmid, hlast⟩ := Option.bind_eq_some_iff.mp h
    rw [length_swapBytesIn hlast, length_swapBytesIn hmid]

/-- On any bytes at all the flip of two bytes reads outside of its block. -/
theorem flipBytes2In_none (hbuf : buf ≠ []) : flipBytes2In buf = none := by
  refine flipLoopIn_none (Nat.succ_pos 1) (fun i buf hle => ?_) (fun i buf buf' h => ?_)
    (List.length_pos_iff.mpr hbuf) (Nat.le_add_left _ _)
  · rw [swapBytesIn_eq, if_neg (by omega)]
  · exact length_swapBytesIn h

/-- A flip that leaves every buffer but the empty one is right for that one alone. -/
theorem flipAligned_iff {n : Nat} {flip : Bytes → Option Bytes} (hnil : flip [] = some [])
    (hnone : buf ≠ [] → flip buf = none) : FlipAligned n flip buf ↔ buf = [] := by
  constructor
  · rintro ⟨buf', hflip, -, -⟩
    by_contra hbuf
    rw [hnone hbuf] at hflip
    cases hflip
  · rintro rfl
    exact ⟨[], hnil, ⟨rfl, fun i hi => (by cases hi)⟩, hnil⟩

end

/-- **When the flips are right.** For every buffer, each of the two flips stays inside, reverses the
aligned groups and is its own inverse iff the buffer is empty. Each turn swaps bytes at the offsets
1 and 4, or 1 and 2, from where its group starts, the last of which is behind the group. -/
theorem flips_aligned_iff (buf : Bytes) :
    (FlipAligned 4 flipBytes4In buf ↔ buf = []) ∧ (FlipAligned 2 flipBytes2In buf ↔ buf = []) :=
  ⟨flipAligned_iff rfl flipBytes4In_none, flipAligned_iff rfl flipBytes2In_none⟩

/-- Four bytes and the terminator behind them: the first byte stays and the last becomes the
terminator. -/
theorem flips_misaligned :
    flipBytes4 4 [0x01, 0x02, 0x03, 0x04, 0x00] = some [0x01, 0x00, 0x04, 0x03, 0x02] ∧
      flipBytes2 4 [0x01, 0x02, 0x03, 0x04, 0x00] = some [0x01, 0x03, 0x02, 0x00, 0x04] ∧
      flipBytes4In [0x01, 0x02, 0x03, 0x04] = none ∧
      flipBytes2In [0x01, 0x02, 0x03, 0x04] = none := by
  decide +kernel

end Eltn
