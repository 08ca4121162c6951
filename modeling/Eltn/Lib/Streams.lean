import Mathlib.Data.List.Basic
import Mathlib.Tactic.Common

/-!
# Streams

A stream is a function that gives an element, or none, and a state. `Streams.Gives` says what all
its calls give: the elements of a list and then none for ever. It is about one call and the calls
behind it (`gives_iff`), and it follows from an invariant on the state and the elements left
(`gives_of_invariant`).
-/

namespace Streams

variable {σ α : Type*} (next : σ → Option α × σ)

/-- The state behind `k` calls. -/
def after : σ → Nat → σ
  | s, 0 => s
  | s, k + 1 => after (next s).2 k

/-- The calls give the elements of the list in order, and every call behind them gives none. -/
def Gives (s : σ) (xs : List α) : Prop := ∀ k, (next (after next s k)).1 = xs[k]?

variable {next} {s : σ} {xs : List α}

/-- The first call and the others: a stream gives a list if the call gives its first element, and
the state behind it gives the rest. -/
theorem gives_iff :
    Gives next s xs ↔ (next s).1 = xs.head? ∧ Gives next (next s).2 xs.tail := by
  constructor
  · intro h
    refine ⟨?_, fun k => ?_⟩
    · rw [List.head?_eq_getElem?]
      exact h 0
    · rw [List.getElem?_tail]
      exact h (k + 1)
  · rintro ⟨hfirst, hrest⟩ k
    cases k with
    | zero =>
      rw [← List.head?_eq_getElem?]
      exact hfirst
    | succ k =>
      rw [← List.getElem?_tail]
      exact hrest k

/-- An invariant of the state and the elements left, which each call keeps, tells what the stream
gives. -/
theorem gives_of_invariant (Inv : σ → List α → Prop) (h : Inv s xs)
    (hstep : ∀ s xs, Inv s xs → (next s).1 = xs.head? ∧ Inv (next s).2 xs.tail) :
    Gives next s xs := by
  intro k
  induction k generalizing s xs with
  | zero =>
    rw [← List.head?_eq_getElem?]
    exact (hstep s xs h).1
  | succ k ih =>
    rw [← List.getElem?_tail]
    exact ih (hstep s xs h).2

end Streams
