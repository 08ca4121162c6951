import Mathlib.Algebra.Ring.Int.Defs
import Mathlib.Algebra.Ring.Nat
import Mathlib.Algebra.BigOperators.Group.List.Basic
import Mathlib.Tactic.Common

/-!
# Walks on the integers

A walk is the list of its steps. `Walk.Below m d xs` says that the walk from `d` stays below `m`; a
walk with steps of at least `-1` that does not, and ends below `m`, steps down from `m`
(`Walk.exists_step_down`).
-/

namespace Walk

/-- The walk from `d` stays below `m`. -/
def Below (m : Int) : Int → List Int → Prop
  | d, [] => d < m
  | d, x :: xs => d < m ∧ Below m (d + x) xs

variable {m d : Int} {xs ys : List Int}

/-- A walk that stays below a bound starts below it. -/
theorem Below.lt (h : Below m d xs) : d < m := by
  cases xs with
  | nil => exact h
  | cons x xs => exact h.1

/-- A walk in two parts stays below where both parts do, the second from where the first ends. -/
theorem below_append : Below m d (xs ++ ys) ↔ Below m d xs ∧ Below m (d + xs.sum) ys := by
  induction xs generalizing d with
  | nil =>
    rw [List.nil_append, List.sum_nil, add_zero]
    exact ⟨fun h => ⟨h.lt, h⟩, fun h => h.2⟩
  | cons x xs ih =>
    rw [List.cons_append, List.sum_cons, ← add_assoc]
    show d < m ∧ Below m (d + x) (xs ++ ys) ↔ (d < m ∧ Below m (d + x) xs) ∧ _
    rw [ih, and_assoc]

/-- Fewer than `m - d` steps up do not reach `m`. -/
theorem below_of_length (hxs : ∀ x ∈ xs, x ≤ 1) (h : d + xs.length < m) : Below m d xs := by
  induction xs generalizing d with
  | nil => exact (by simpa using h : d < m)
  | cons x xs ih =>
    obtain ⟨hx, hxs⟩ := List.forall_mem_cons.mp hxs
    rw [List.length_cons] at h
    exact ⟨by omega, ih hxs (by omega)⟩

/-- A walk that is at `m` or above and ends below it steps down from `m`, since no step goes down by
more than one. -/
theorem exists_step_down_of_le (hxs : ∀ x ∈ xs, -1 ≤ x) (hd : m ≤ d) (hsum : d + xs.sum < m) :
    ∃ ys zs, xs = ys ++ -1 :: zs ∧ d + ys.sum = m := by
  induction xs generalizing d with
  | nil =>
    rw [List.sum_nil] at hsum
    omega
  | cons x xs ih =>
    obtain ⟨hx, hxs⟩ := List.forall_mem_cons.mp hxs
    rw [List.sum_cons, ← add_assoc] at hsum
    rcases Int.lt_or_le (d + x) m with hlt | hle
    swap
    · obtain ⟨ys, zs, rfl, hys⟩ := ih hxs hle hsum
      exact ⟨x :: ys, zs, rfl, by rw [List.sum_cons, ← add_assoc, hys]⟩
    · obtain rfl : x = -1 := by omega
      exact ⟨[], xs, rfl, by rw [List.sum_nil]; omega⟩

/-- A walk that does not stay below `m` and ends below it steps down from `m`. -/
theorem exists_step_down (hxs : ∀ x ∈ xs, -1 ≤ x) (h : ¬ Below m d xs) (hsum : d + xs.sum < m) :
    ∃ ys zs, xs = ys ++ -1 :: zs ∧ d + ys.sum = m := by
  induction xs generalizing d with
  | nil => exact absurd (by simpa using hsum : d < m) h
  | cons x xs ih =>
    rcases Int.lt_or_le d m with hlt | hle
    swap
    · exact exists_step_down_of_le hxs hle hsum
    · obtain ⟨-, hxs'⟩ := List.forall_mem_cons.mp hxs
      rw [List.sum_cons, ← add_assoc] at hsum
      obtain ⟨ys, zs, rfl, hys⟩ := ih hxs' (fun hb => h ⟨hlt, hb⟩) hsum
      exact ⟨x :: ys, zs, rfl, by rw [List.sum_cons, ← add_assoc, hys]⟩

end Walk
