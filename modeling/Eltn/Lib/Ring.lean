import Mathlib.Data.List.Basic
import Mathlib.Tactic.Common

/-!
# Rings in a block of memory

A ring is a block of cells with a first position and a length; past the end of the block it goes on
at cell `0`. `Ring.contents` is the list it holds. Appending in at most two pieces
(`contents_storeAt`), taking the first cell off (`contents_succ`) and copying the ring to the front
of another block (`contents_pieces`, `contents_overwrite_zero`) are the operations.
-/

/-- The block with `xs` copied over its cells from `off` on. -/
def List.overwrite {α : Type*} (block : List α) (off : Nat) (xs : List α) : List α :=
  block.take off ++ xs ++ block.drop (off + xs.length)

namespace Ring

variable {α : Type*} {block xs : List α} {head len off i : Nat}

/-- Cells copied from inside a block on; the block is as long as they ask for. -/
theorem length_overwrite_max (h : off ≤ block.length) :
    (block.overwrite off xs).length = max block.length (off + xs.length) := by
  simp only [List.overwrite, List.length_append, List.length_take, List.length_drop]
  omega

/-- To copy cells over others inside a block leaves its size. -/
theorem length_overwrite (h : off + xs.length ≤ block.length) :
    (block.overwrite off xs).length = block.length := by
  rw [length_overwrite_max (by omega), Nat.max_eq_left h]

/-- A cell is the one copied there, or what it was: the copy has the cells from `off` on, as many as
it is long. -/
theorem getElem?_overwrite (h : off + xs.length ≤ block.length) :
    (block.overwrite off xs)[i]? =
      if off ≤ i ∧ i < off + xs.length then xs[i - off]? else block[i]? := by
  have htake : (block.take off).length = off := by
    rw [List.length_take]
    omega
  rw [List.overwrite, List.append_assoc, List.getElem?_append, htake]
  split
  · next hi => rw [List.getElem?_take_of_lt hi, if_neg (by omega)]
  · next hi =>
    rw [List.getElem?_append]
    split
    · rw [if_pos (by omega)]
    · rw [if_neg (by omega), List.getElem?_drop]
      congr 1
      omega

/-- Copying two pieces one behind the other is copying them as one. -/
theorem overwrite_append {ys : List α} (h : off + xs.length ≤ block.length) :
    (block.overwrite off xs).overwrite (off + xs.length) ys = block.overwrite off (xs ++ ys) := by
  have hlen : (block.take off ++ xs).length = off + xs.length := by
    rw [List.length_append, List.length_take]
    omega
  simp only [List.overwrite]
  rw [List.take_left' hlen, List.drop_append, hlen, List.drop_eq_nil_of_le (by omega),
    List.nil_append, List.drop_drop, List.length_append, List.append_assoc (block.take off)]
  congr 2
  omega

/-- The cell at offset `i` of a ring that starts at `head`. -/
def index (cap head i : Nat) : Nat := if head + i < cap then head + i else head + i - cap

/-- Offsets into a ring lie in the block. -/
theorem index_lt {cap : Nat} (hh : head < cap) (hi : i ≤ cap) : index cap head i < cap := by
  unfold index
  split <;> omega

/-- To go on twice around the ring is to go on once. -/
theorem index_index {cap j : Nat} (hh : head < cap) (hij : i + j ≤ cap) :
    index cap (index cap head i) j = index cap head (i + j) := by
  unfold index
  repeat' split
  all_goals omega

section
variable {cap n : Nat}

/-- Behind a ring of `len` cells come `n` cells that are none of its own, where the block is large
enough. -/
theorem index_before (hh : head < cap) (hl : len + n ≤ cap) (hi : i < len) :
    ¬ (index cap head len ≤ index cap head i ∧ index cap head i < index cap head len + n) ∧
      ¬ index cap head i + cap < index cap head len + n := by
  unfold index
  split <;> split <;> omega

/-- Where the cell at offset `i ≥ len` is, seen from the end of the ring. -/
theorem index_behind (hl : len + n ≤ cap) (hi : len ≤ i) (hn : i < len + n) :
    (index cap head len ≤ index cap head i ∧ index cap head i < index cap head len + n ∧
        index cap head i - index cap head len = i - len) ∨
      (index cap head i < index cap head len ∧
        index cap head i + cap < index cap head len + n ∧
        index cap head i + cap - index cap head len = i - len) := by
  unfold index
  split <;> split <;> omega

end

/-- The cells of the ring in order. -/
def contents (block : List α) (head len : Nat) : List α := ((block ++ block).drop head).take len

/-- An empty ring has no cells. -/
@[simp] theorem contents_zero : contents block head 0 = [] := List.take_zero

/-- The contents have the length that is asked for. -/
theorem length_contents (hh : head < block.length) (hl : len ≤ block.length) :
    (contents block head len).length = len := by
  simp only [contents, List.length_take, List.length_drop, List.length_append]
  omega

/-- The cells of the contents are those of the block, taken around its end. -/
theorem getElem?_contents (hi : i < len) :
    (contents block head len)[i]? = block[index block.length head i]? := by
  rw [contents, List.getElem?_take_of_lt hi, List.getElem?_drop, List.getElem?_append, index]
  split <;> rfl

/-- A ring is one piece of its block, or the end of the block and its front where it wraps around.
-/
theorem contents_pieces (hh : head < block.length) :
    contents block head len =
      if head + len ≤ block.length then (block.drop head).take len
      else block.drop head ++ block.take (head + len - block.length) := by
  rw [contents, List.drop_append_of_le_length (Nat.le_of_lt hh), List.take_append]
  split
  · next h =>
    have : len - (block.drop head).length = 0 := by
      rw [List.length_drop]
      omega
    rw [this, List.take_zero, List.append_nil]
  · next h =>
    rw [List.take_of_length_le (by rw [List.length_drop]; omega), List.length_drop]
    congr 2
    omega

/-- The first cell of the ring, and the ring behind it, whose head is one on, around the block. -/
theorem contents_succ (hh : head < block.length) (hl : len + 1 ≤ block.length) :
    contents block head (len + 1) =
      block[head] :: contents block (index block.length head 1) len := by
  apply List.ext_getElem?
  intro i
  rcases Nat.lt_or_ge i (len + 1) with hi | hi
  · rw [getElem?_contents hi]
    cases i with
    | zero =>
      rw [List.getElem?_cons_zero, index, Nat.add_zero, if_pos hh, List.getElem?_eq_getElem hh]
    | succ i =>
      rw [List.getElem?_cons_succ, getElem?_contents (by omega),
        index_index hh (by omega), Nat.add_comm 1 i]
  · rw [List.getElem?_eq_none (by rw [length_contents hh hl]; exact hi), List.getElem?_eq_none]
    rw [List.length_cons, length_contents (index_lt hh (by omega)) (by omega)]
    exact hi

/-- The block with `xs` copied over the cells of the ring from `off` on: in one piece, or in two
when the end of the block is reached. -/
def storeAt (block : List α) (off : Nat) (xs : List α) : List α :=
  if off + xs.length < block.length then block.overwrite off xs
  else (block.overwrite off (xs.take (block.length - off))).overwrite 0
    (xs.drop (block.length - off))

/-- To copy cells around the end of the block leaves its size. -/
theorem length_storeAt (ho : off < block.length) (hl : xs.length ≤ block.length) :
    (storeAt block off xs).length = block.length := by
  rw [storeAt]
  split
  · exact length_overwrite (by omega)
  · have hfst : (block.overwrite off (xs.take (block.length - off))).length = block.length :=
      length_overwrite (by rw [List.length_take]; omega)
    rw [length_overwrite (by rw [hfst, List.length_drop]; omega), hfst]

/-- Cell `j` of the block, seen from the ring position `off`: behind it in the block, in front of it
where the copy wraps around, or untouched. -/
theorem getElem?_storeAt {j : Nat} (ho : off < block.length) (hl : xs.length ≤ block.length)
    (hj : j < block.length) :
    (storeAt block off xs)[j]? =
      if off ≤ j ∧ j < off + xs.length then xs[j - off]?
      else if j + block.length < off + xs.length then xs[j + block.length - off]?
      else block[j]? := by
  rw [storeAt]
  split
  · rw [getElem?_overwrite (by omega)]
    split
    · rfl
    · rw [if_neg (by omega)]
  · have hfst : (block.overwrite off (xs.take (block.length - off))).length = block.length :=
      length_overwrite (by rw [List.length_take]; omega)
    have htake : (xs.take (block.length - off)).length = block.length - off := by
      rw [List.length_take]
      omega
    rw [getElem?_overwrite (by rw [hfst, List.length_drop]; omega), List.length_drop,
      getElem?_overwrite (by omega), htake, List.getElem?_drop]
    rcases Nat.lt_or_ge j off with hlt | hge
    · rw [if_neg (c := off ≤ j ∧ j < off + (block.length - off)) (by omega),
        if_neg (c := off ≤ j ∧ j < off + xs.length) (by omega)]
      rcases Nat.lt_or_ge (j + block.length) (off + xs.length) with hw | hw
      · rw [if_pos (by omega), if_pos hw]
        congr 1
        omega
      · rw [if_neg (by omega), if_neg (by omega)]
    · rw [if_neg (by omega), if_pos (by omega), if_pos (by omega),
        List.getElem?_take_of_lt (by omega)]

/-- Appending behind the ring: what is stored from its end on becomes the end of its contents,
wherever the head stands in the block. -/
theorem contents_storeAt (hh : head < block.length) (hl : len + xs.length ≤ block.length) :
    contents (storeAt block (index block.length head len) xs) head (len + xs.length) =
      contents block head len ++ xs := by
  have ho : index block.length head len < block.length := index_lt hh (by omega)
  have hlen : (storeAt block (index block.length head len) xs).length = block.length :=
    length_storeAt ho (by omega)
  have hnew : (contents (storeAt block (index block.length head len) xs) head
      (len + xs.length)).length = len + xs.length :=
    length_contents (by omega) (by omega)
  have hold : (contents block head len).length = len := length_contents hh (by omega)
  apply List.ext_getElem?
  intro i
  rw [List.getElem?_append, hold]
  rcases Nat.lt_or_ge i (len + xs.length) with hi | hi
  · rw [getElem?_contents hi, hlen,
      getElem?_storeAt ho (by omega) (index_lt hh (by omega))]
    rcases Nat.lt_or_ge i len with hil | hil
    · obtain ⟨hout, hout'⟩ := index_before hh hl hil
      rw [if_neg hout, if_neg hout', if_pos hil, getElem?_contents hil]
    · rw [if_neg (c := i < len) (by omega)]
      rcases index_behind hl hil hi with ⟨hge, hlt, heq⟩ | ⟨hlt, hw, heq⟩
      · rw [if_pos ⟨hge, hlt⟩, heq]
      · rw [if_neg (fun h => Nat.not_le.mpr hlt h.1), if_pos hw, heq]
  · rw [List.getElem?_eq_none (by omega), if_neg (by omega), List.getElem?_eq_none (by omega)]

/-- A list at the front of a block. -/
theorem contents_overwrite_zero :
    contents (block.overwrite 0 xs) 0 xs.length = xs := by
  rw [contents, List.drop_zero, List.overwrite, List.take_zero, List.nil_append, List.append_assoc,
    List.take_left]

end Ring
