import Mathlib.Data.List.Basic
import Mathlib.Tactic.Common

/-!
# Blocks of memory

A block is the list of its cells. A store outside the block has no result, so that a result says
that every store of a run was inside. A program that appends keeps what it has stored in front
(`storeAll_room`).
-/

namespace Blocks

section
variable {α : Type*}

/-- A store at an index. -/
def store (x : α) (i : Nat) (cells : List α) : Option (List α) :=
  if i < cells.length then some (cells.set i x) else none

/-- Stores one behind the other, from an index on. -/
def storeAll : List α → Nat → List α → Option (List α)
  | [], _, cells => some cells
  | x :: xs, i, cells => (store x i cells).bind (storeAll xs (i + 1))

variable {x : α} {xs gap : List α}

/-- A store behind the first cells of a block changes the next one. -/
theorem store_append (pre : List α) (y : α) (post : List α) :
    store x pre.length (pre ++ y :: post) = some (pre ++ x :: post) := by
  have hin : pre.length < (pre ++ y :: post).length := by simp
  rw [store, if_pos hin, List.set_append_right _ _ (Nat.le_refl _), Nat.sub_self,
    List.set_cons_zero]

/-- Stores that fill a gap change nothing around it. -/
theorem storeAll_append (pre post : List α) (hgap : gap.length = xs.length) :
    storeAll xs pre.length (pre ++ (gap ++ post)) = some (pre ++ (xs ++ post)) := by
  induction xs generalizing pre gap with
  | nil =>
    rw [List.length_eq_zero_iff.mp hgap]
    rfl
  | cons x xs ih =>
    obtain ⟨y, gap, rfl⟩ := List.exists_cons_of_length_eq_add_one hgap
    have hrest := ih (pre ++ [x]) (Nat.succ.inj hgap)
    rw [List.length_append, List.length_singleton, List.append_assoc, List.append_assoc] at hrest
    rw [storeAll, List.cons_append, store_append, Option.bind_some]
    exact hrest

/-- Stores from the end of the front on, with enough cells behind it. -/
theorem storeAll_room {cells : List α} (pre : List α) (hroom : xs.length ≤ cells.length) :
    storeAll xs pre.length (pre ++ cells) = some (pre ++ xs ++ cells.drop xs.length) := by
  have hgap : (cells.take xs.length).length = xs.length := List.length_take_of_le hroom
  have hall := storeAll_append pre (cells.drop xs.length) hgap
  rwa [List.take_append_drop, ← List.append_assoc] at hall

end

end Blocks
