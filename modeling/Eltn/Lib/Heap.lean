import Mathlib.Data.List.Nodup
import Mathlib.Data.List.Perm.Basic
import Mathlib.Tactic.Common

/-!
# Heaps

A heap gives every block an address of its own, and never gives an address again. A block is live
until it is freed; a store to or a free of a block that is not live has no result, so that a result
says that no block was used behind its end or freed twice. `Owns` names the blocks that are live:
what none of the pointers of a program leads to is lost.
-/

/-- A heap; a block that was freed is `none`. -/
structure Heap (β : Type*) where
  blocks : List (Option β) := []

namespace Heap

section
variable {β : Type*}

/-- The block at an address. -/
def get (h : Heap β) (a : Nat) : Option β := h.blocks[a]?.join

/-- A new block, and its address. -/
def alloc (b : β) (h : Heap β) : Nat × Heap β := (h.blocks.length, ⟨h.blocks ++ [some b]⟩)

/-- A store to a block. -/
def set (a : Nat) (b : β) (h : Heap β) : Option (Heap β) :=
  if (h.get a).isSome then some ⟨h.blocks.set a (some b)⟩ else none

/-- A block is freed. -/
def free (a : Nat) (h : Heap β) : Option (Heap β) :=
  if (h.get a).isSome then some ⟨h.blocks.set a none⟩ else none

variable {h h' : Heap β} {a c : Nat} {b b' : β} {as cs : List Nat}

/-- Blocks have addresses that were given out. -/
theorem lt_of_get (hget : h.get a = some b) : a < h.blocks.length := by
  by_contra hge
  rw [get, List.getElem?_eq_none (Nat.not_lt.mp hge)] at hget
  cases hget

/-- A new block is at its address. -/
@[simp] theorem get_alloc_self : (h.alloc b).2.get (h.alloc b).1 = some b := by
  simp [get, alloc]

/-- A new block leaves the others where they are. -/
theorem get_alloc_of_ne (hne : a ≠ (h.alloc b).1) : (h.alloc b).2.get a = h.get a := by
  rcases Nat.lt_or_gt_of_ne hne with hlt | hgt
  · rw [get, get, alloc, List.getElem?_append_left hlt]
  · have hlength : (h.blocks ++ [some b]).length ≤ a := by
      rw [List.length_append, List.length_singleton]
      exact hgt
    rw [get, get, alloc, List.getElem?_eq_none hlength, List.getElem?_eq_none (Nat.le_of_lt hgt)]

/-! ## Ownership -/

/-- The live blocks are the ones at the addresses, each of them once. -/
structure Owns (h : Heap β) (as : List Nat) : Prop where
  nodup : as.Nodup
  mem_iff : ∀ a, a ∈ as ↔ (h.get a).isSome

/-- The two heaps have the same blocks at the addresses. -/
def Agree (as : List Nat) (h h' : Heap β) : Prop := ∀ a ∈ as, h'.get a = h.get a

/-- An empty heap owns no blocks. -/
theorem owns_empty : Owns ({} : Heap β) [] := ⟨List.nodup_nil, fun a => by simp [get]⟩

/-- The order in which blocks are listed does not matter. -/
theorem Owns.perm (hown : Owns h as) (hperm : as.Perm cs) : Owns h cs :=
  ⟨hperm.nodup_iff.mp hown.nodup, fun a => hperm.mem_iff.symm.trans (hown.mem_iff a)⟩

/-- A block that is listed is live. -/
theorem Owns.get (hown : Owns h as) (ha : a ∈ as) : ∃ b, h.get a = some b :=
  Option.isSome_iff_exists.mp ((hown.mem_iff a).mp ha)

/-- A new block is owned, and the others stay. Nothing that was live is given out again. -/
theorem Owns.alloc (hown : Owns h as) (b : β) :
    Owns (h.alloc b).2 ((h.alloc b).1 :: as) ∧ Agree as h (h.alloc b).2 := by
  have hnew : (h.alloc b).1 ∉ as := by
    intro hmem
    obtain ⟨b', hb'⟩ := hown.get hmem
    exact Nat.lt_irrefl _ (lt_of_get hb')
  refine ⟨⟨List.nodup_cons.mpr ⟨hnew, hown.nodup⟩, fun a => ?_⟩, fun a ha => ?_⟩
  · rcases eq_or_ne a (h.alloc b).1 with rfl | hne
    · simp
    · rw [get_alloc_of_ne hne, ← hown.mem_iff, List.mem_cons, or_iff_right hne]
  · exact get_alloc_of_ne fun heq => hnew (heq ▸ ha)

/-- A store changes one block. -/
theorem get_set (hset : h.set a b = some h') (c : Nat) :
    h'.get c = if c = a then some b else h.get c := by
  rw [set] at hset
  split at hset
  · next hlive =>
    cases hset
    obtain ⟨b', hb'⟩ := Option.isSome_iff_exists.mp hlive
    have hlt := lt_of_get hb'
    split
    · next heq => rw [heq, get, List.getElem?_set_self hlt, Option.join_some]
    · next hne => rw [get, get, List.getElem?_set_ne (Ne.symm hne)]
  · cases hset

/-- A block that is freed is there no more, and the others stay. -/
theorem get_free (hfree : h.free a = some h') (c : Nat) :
    h'.get c = if c = a then none else h.get c := by
  rw [free] at hfree
  split at hfree
  · next hlive =>
    cases hfree
    obtain ⟨b', hb'⟩ := Option.isSome_iff_exists.mp hlive
    have hlt := lt_of_get hb'
    split
    · next heq => rw [heq, get, List.getElem?_set_self hlt, Option.join_some]
    · next hne => rw [get, get, List.getElem?_set_ne (Ne.symm hne)]
  · cases hfree

/-- A store to an owned block changes nothing else. -/
theorem Owns.set (hown : Owns h as) (ha : a ∈ as) (b : β) :
    ∃ h', h.set a b = some h' ∧ Owns h' as ∧ h'.get a = some b ∧
      ∀ c, c ≠ a → h'.get c = h.get c := by
  have hlive := (hown.mem_iff a).mp ha
  have hset : h.set a b = some ⟨h.blocks.set a (some b)⟩ := if_pos hlive
  have hget := get_set hset
  refine ⟨_, hset, ⟨hown.nodup, fun c => ?_⟩, ?_, fun c hne => ?_⟩
  · rw [hget]
    split
    · next heq => simp [heq, ha]
    · exact hown.mem_iff c
  · rw [hget, if_pos rfl]
  · rw [hget, if_neg hne]

/-- An owned block can be freed, and the others stay. No other block can be reached through it. -/
theorem Owns.free (hown : Owns h (a :: as)) :
    ∃ h', h.free a = some h' ∧ Owns h' as ∧ Agree as h h' := by
  obtain ⟨hnew, hnodup⟩ := List.nodup_cons.mp hown.nodup
  have hlive := (hown.mem_iff a).mp List.mem_cons_self
  have hfree : h.free a = some ⟨h.blocks.set a none⟩ := if_pos hlive
  have hget := get_free hfree
  refine ⟨_, hfree, ⟨hnodup, fun c => ?_⟩, fun c hc => ?_⟩
  · rw [hget]
    split
    · next heq => simp [heq, hnew]
    · next hne => rw [← hown.mem_iff, List.mem_cons, or_iff_right hne]
  · have hne : c ≠ a := fun heq => hnew (heq ▸ hc)
    rw [hget, if_neg hne]

end

end Heap
