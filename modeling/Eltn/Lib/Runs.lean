import Mathlib.Data.List.Basic
import Mathlib.Tactic.Common

/-!
# Runs of a step function

A run takes a list of inputs from a state. `Runs.Along` says that every step of a run is related to
the state before it and its input; it is about all positions of the run (`along_iff`). Where two
relations agree on the states of an invariant that the second keeps, they agree along the whole run
(`along_congr`): up to the first step that breaks the second the invariant holds, so the first
breaks there too.
-/

namespace Runs

variable {σ ι : Type*} (step : σ → ι → σ)

/-- The state behind the inputs. -/
def run (s : σ) (is : List ι) : σ := is.foldl step s

/-- Every step of the run is related to the state before it and its input. -/
def Along (R : σ → ι → Prop) : σ → List ι → Prop
  | _, [] => True
  | s, i :: is => R s i ∧ Along R (step s i) is

variable {step} {R R' D : σ → ι → Prop} {Inv P : σ → Prop} {s : σ} {i : ι} {is : List ι}

instance decidableAlong [∀ s i, Decidable (R s i)] :
    (s : σ) → (is : List ι) → Decidable (Along step R s is)
  | _, [] => .isTrue trivial
  | s, i :: is => @instDecidableAnd _ _ inferInstance (decidableAlong (step s i) is)

@[simp] theorem run_nil : run step s [] = s := rfl

@[simp] theorem run_cons : run step s (i :: is) = run step (step s i) is := rfl

/-- A run is all its steps: the relation holds of every input together with the state that the
inputs before it lead to. -/
theorem along_iff :
    Along step R s is ↔ ∀ k i, is[k]? = some i → R (run step s (is.take k)) i := by
  induction is generalizing s with
  | nil => simp [Along]
  | cons i is ih =>
    rw [Along, ih]
    constructor
    · rintro ⟨hfirst, hrest⟩ k j hk
      cases k with
      | zero =>
        obtain rfl : i = j := by simpa using hk
        exact hfirst
      | succ k => exact hrest k j (by simpa using hk)
    · intro h
      exact ⟨h 0 i rfl, fun k j hk => h (k + 1) j (by simpa using hk)⟩

/-- What holds of every step holds along every run. -/
theorem along_of_forall (h : ∀ s, ∀ i ∈ is, R s i) : Along step R s is :=
  along_iff.mpr fun _ _ hk => h _ _ (List.mem_of_getElem? hk)

/-- **A property of all states** is one of the first state and of each step, which turns a condition
on what is reached into one on the steps. -/
theorem forall_run_take_iff :
    (∀ k, P (run step s (is.take k))) ↔ P s ∧ Along step (fun s i => P (step s i)) s is := by
  induction is generalizing s with
  | nil => simp [Along]
  | cons i is ih =>
    rw [Along, ← ih]
    constructor
    · exact fun h => ⟨h 0, fun k => h (k + 1)⟩
    · rintro ⟨hs, h⟩ k
      cases k with
      | zero => exact hs
      | succ k => exact h k

/-- **Two relations along a run.** If they agree on the states of an invariant, and steps of the
second keep the invariant, they agree along the run. `D` is what is known of all its steps. -/
theorem along_congr (hs : Inv s) (hdom : Along step D s is)
    (hiff : ∀ s i, Inv s → D s i → (R s i ↔ R' s i))
    (hkeep : ∀ s i, Inv s → D s i → R' s i → Inv (step s i)) :
    Along step R s is ↔ Along step R' s is := by
  induction is generalizing s with
  | nil => rfl
  | cons i is ih =>
    obtain ⟨hi, hrest⟩ := hdom
    rw [Along, Along, hiff s i hs hi]
    exact and_congr_right fun h => ih (hkeep s i hs hi h) hrest

end Runs
