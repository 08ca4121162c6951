import Eltn.Convert.Order
import Mathlib.Data.List.Basic
import Mathlib.Data.List.GetD

/-!
# Flips

`flip_bytes_4` and `flip_bytes_2` move each group of bytes by one byte too far: the first byte of
the text stays, and the last group ends with the byte behind the text (`flipLoop_chunks`).
-/

namespace Eltn

/-! ## Groups of any length -/

section
variable {step length fuel : Nat} {swaps : Nat → Bytes → Bytes}

/-- To swap two bytes behind others leaves those in front alone. -/
theorem swapBytes_append (pre s : Bytes) (i j : Nat) :
    swapBytes (pre.length + i) (pre.length + j) (pre ++ s) = pre ++ swapBytes i j s := by
  have hget (k : Nat) : (pre ++ s).getD (pre.length + k) 0 = s.getD k 0 := by
    rw [List.getD_append_right _ _ _ _ (Nat.le_add_right _ _), Nat.add_sub_cancel_left]
  rw [swapBytes, hget, hget, swapBytes]
  simp

/-- The turns of a flip reverse the bytes from `i + 1` on. -/
def Reverses (step : Nat) (swaps : Nat → Bytes → Bytes) : Prop :=
  ∀ (pre : Bytes) (x : UInt8) (chunk s : Bytes), chunk.length = step →
    swaps pre.length (pre ++ x :: (chunk ++ s)) = pre ++ x :: (chunk.reverse ++ s)

/-- The swaps of `flip_bytes_4` reverse four bytes, but those one place behind where they should. -/
theorem reverses_four : Reverses 4 fun i buf =>
    swapBytes (i + 2) (i + 3) (swapBytes (i + 1) (i + 4) buf) := by
  intro pre x chunk s hchunk
  obtain ⟨a, b, c, d, rfl⟩ := List.length_eq_four.mp hchunk
  dsimp only
  rw [swapBytes_append, swapBytes_append]
  rfl

/-- The swap of `flip_bytes_2` reverses two bytes, one place behind likewise. -/
theorem reverses_two : Reverses 2 fun i buf => swapBytes (i + 1) (i + 2) buf := by
  intro pre x chunk s hchunk
  obtain ⟨a, b, rfl⟩ := List.length_eq_two.mp hchunk
  dsimp only
  rw [swapBytes_append]
  rfl

/-- **A flip leaves the first byte** and reverses the groups behind it, the last of which ends with
the byte behind the text. By induction on the groups: a turn reverses the bytes behind `x`, and the
last of them is the `x` of the next turn. -/
theorem flipLoop_chunks (hswaps : Reverses step swaps) (hstep : 0 < step) {chunks : List Bytes}
    (hchunks : ∀ chunk ∈ chunks, chunk.length = step) {pre : Bytes} {x : UInt8}
    (hlen : length = pre.length + step * chunks.length) (hfuel : chunks.length ≤ fuel)
    (hmax : length ≤ intMax) :
    flipLoop step swaps length fuel pre.length (pre ++ x :: chunks.flatten) =
      some (pre ++ x :: (chunks.map List.reverse).flatten) := by
  induction chunks generalizing pre x fuel with
  | nil =>
    have hdone : ¬ pre.length < length := by
      rw [hlen]
      simp
    cases fuel with
    | zero => rfl
    | succ fuel => rw [flipLoop, if_neg hdone]; rfl
  | cons chunk chunks ih =>
    obtain ⟨hchunk, hchunks⟩ := List.forall_mem_cons.mp hchunks
    rw [List.length_cons, Nat.mul_add, Nat.mul_one] at hlen
    rw [List.length_cons] at hfuel
    obtain ⟨fuel, rfl⟩ : ∃ n, fuel = n + 1 := ⟨fuel - 1, by omega⟩
    have hne : chunk.reverse ≠ [] := by
      intro hnil
      rw [List.reverse_eq_nil_iff.mp hnil] at hchunk
      simp at hchunk
      omega
    obtain ⟨init, y, hinit⟩ : ∃ init y, chunk.reverse = init ++ [y] :=
      ⟨_, _, (List.dropLast_append_getLast hne).symm⟩
    have hlast : (pre ++ x :: init).length = pre.length + step := by
      have := congrArg List.length hinit
      simp only [List.length_append, List.length_cons, List.length_nil,
        List.length_reverse] at this ⊢
      omega
    have hsplit (s : Bytes) : pre ++ x :: (chunk.reverse ++ s) = pre ++ x :: init ++ y :: s := by
      rw [hinit]
      simp
    rw [flipLoop, if_pos (by omega), if_pos (by omega), List.flatten_cons, hswaps _ _ _ _ hchunk,
      hsplit, ← hlast, ih hchunks (by omega) (by omega), List.map_cons, List.flatten_cons, hsplit]

/-- A text too long for the `int` index has no flip: the index overflows before it is at the end. -/
theorem flipLoop_none {i : Nat} {buf : Bytes} (hstep : 0 < step) (hi : i ≤ intMax)
    (hmax : intMax < length) (hfuel : length - i ≤ fuel) :
    flipLoop step swaps length fuel i buf = none := by
  induction fuel generalizing i buf with
  | zero => omega
  | succ fuel ih =>
    rw [flipLoop, if_pos (by omega)]
    split
    · next hle => exact ih hle (by omega)
    · rfl

end

/-! ## Groups of four bytes -/

section
variable {p q r s : Char → UInt8} {c : Char} {text : List Char}

/-- The first byte of the next character, or the byte behind the text. -/
def nextByte (p : Char → UInt8) (text : List Char) : UInt8 := (text.head?.map p).getD 0

/-- The groups behind the first byte of a text of which each character has the bytes `p`, `q`, `r`
and `s`. -/
def carried (p q r s : Char → UInt8) : List Char → List Bytes
  | [] => []
  | c :: text => [q c, r c, s c, nextByte p text] :: carried p q r s text

/-- There are as many groups as characters. -/
theorem length_carried (text : List Char) : (carried p q r s text).length = text.length := by
  induction text with
  | nil => rfl
  | cons c text ih => rw [carried, List.length_cons, ih, List.length_cons]

/-- Each group has four bytes. -/
theorem carried_four (text : List Char) : ∀ chunk ∈ carried p q r s text, chunk.length = 4 := by
  induction text with
  | nil => nofun
  | cons c text ih => exact List.forall_mem_cons.mpr ⟨rfl, ih⟩

/-- The bytes of a text and a zero byte behind them are its first byte and the groups, which take
their bytes across characters. -/
theorem flatten_carried (c : Char) (text : List Char) :
    (c :: text).flatMap (fun c => [p c, q c, r c, s c]) ++ [0] =
      p c :: (carried p q r s (c :: text)).flatten := by
  induction text generalizing c with
  | nil => rfl
  | cons d text ih =>
    rw [List.flatMap_cons, List.append_assoc, ih d, carried, List.flatten_cons]
    rfl

/-- `flip_bytes_4` on such a text: each turn mixes a word with the first byte of the next, so that
the byte a word starts with is carried on to the word behind it. -/
theorem flipBytes4_text (c : Char) (text : List Char) :
    flipBytes4 (4 * (c :: text).length)
        ((c :: text).flatMap (fun c => [p c, q c, r c, s c]) ++ [0]) =
      if 4 * (c :: text).length ≤ intMax then
        some (p c :: ((carried p q r s (c :: text)).map List.reverse).flatten)
      else none := by
  rw [flatten_carried, flipBytes4]
  split
  · next hmax =>
    have hlen : 4 * (c :: text).length =
        ([] : Bytes).length + 4 * (carried p q r s (c :: text)).length := by
      rw [length_carried, List.length_nil, Nat.zero_add]
    have hfuel : (carried p q r s (c :: text)).length ≤ 4 * (c :: text).length := by
      rw [length_carried]
      omega
    exact flipLoop_chunks reverses_four (Nat.succ_pos 3) (carried_four _) hlen hfuel hmax
  · exact flipLoop_none (Nat.succ_pos 3) (Nat.zero_le _) (by omega) le_rfl

end

end Eltn
