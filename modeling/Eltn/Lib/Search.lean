import Eltn.CLib

/-!
# Binary search

`bsearch` decides whether an element of a table compares equal (`bsearch_iff`), if the table is
sorted for the comparison: what comes after an element below the key, and before one above it, is
so too. `strcmp` is a strict order of strings, so that ascending tables of strings are sorted for
the comparison with every string (`sortedFor_strcmp`).
-/

namespace Eltn

section
variable {α : Type} {cmp : α → Ordering} {xs : List α}

/-- The table is sorted for the comparison of the key with its elements. -/
def SortedFor (cmp : α → Ordering) (xs : List α) : Prop :=
  xs.Pairwise fun x y => (cmp x = .lt → cmp y = .lt) ∧ (cmp y = .gt → cmp x = .gt)

/-- What occurs in two lists one behind the other occurs in one of them. -/
theorem exists_append {p : α → Prop} {ys : List α} :
    (∃ x ∈ xs ++ ys, p x) ↔ (∃ x ∈ xs, p x) ∨ ∃ x ∈ ys, p x := by
  simp only [List.mem_append, or_and_right, exists_or]

/-- **Binary search** finds an element that compares equal wherever there is one, in an array that
is sorted for the comparison. As many turns as it has elements are enough. By induction on the fuel:
the element in the middle is the one, or one half holds no equal element and the search goes on in
the other. -/
theorem bsearch_iff {fuel : Nat} (h : SortedFor cmp xs) (hfuel : xs.length ≤ fuel) :
    bsearch cmp fuel xs = true ↔ ∃ x ∈ xs, cmp x = .eq := by
  induction fuel generalizing xs with
  | zero =>
    obtain rfl : xs = [] := List.eq_nil_of_length_eq_zero (Nat.le_zero.mp hfuel)
    simp [bsearch]
  | succ fuel ih =>
    rw [bsearch]
    cases hx : xs[xs.length / 2]? with
    | none =>
      have := List.getElem?_eq_none_iff.mp hx
      obtain rfl : xs = [] := List.eq_nil_of_length_eq_zero (by omega)
      simp
    | some x =>
      obtain ⟨hlt, hget⟩ := List.getElem?_eq_some_iff.mp hx
      have hsplit : xs = xs.take (xs.length / 2) ++ x :: xs.drop (xs.length / 2 + 1) := by
        rw [← hget, List.getElem_cons_drop, List.take_append_drop]
      have hlow : (xs.take (xs.length / 2)).length ≤ fuel := by
        rw [List.length_take]
        omega
      have hhigh : (xs.drop (xs.length / 2 + 1)).length ≤ fuel := by
        rw [List.length_drop]
        omega
      generalize xs.take (xs.length / 2) = low, xs.drop (xs.length / 2 + 1) = high at *
      subst hsplit
      obtain ⟨hslow, hshigh, hcross⟩ := List.pairwise_append.mp h
      obtain ⟨habove, hshigh⟩ := List.pairwise_cons.mp hshigh
      dsimp only
      cases hcmp : cmp x with
      | eq => exact iff_of_true rfl ⟨x, by simp, hcmp⟩
      | lt =>
        -- the key is below the element, and so below all that follow
        have hnone : ¬ ∃ y ∈ x :: high, cmp y = .eq := by
          rintro ⟨y, hy, heq⟩
          rcases List.mem_cons.mp hy with rfl | hy
          · simp [hcmp] at heq
          · simp [(habove y hy).1 hcmp] at heq
        rw [exists_append, or_iff_left hnone]
        exact ih hslow hlow
      | gt =>
        have hnone : ¬ ∃ y ∈ low ++ [x], cmp y = .eq := by
          rintro ⟨y, hy, heq⟩
          rcases List.mem_append.mp hy with hy | hy
          · simp [(hcross y hy x List.mem_cons_self).2 hcmp] at heq
          · simp [List.mem_singleton.mp hy, hcmp] at heq
        rw [← List.singleton_append, ← List.append_assoc, exists_append, or_iff_right hnone]
        exact ih hshigh hhigh

end

/-! ## The order of strings -/

section
variable {a b c : Bytes}

/-- Swapping the strings swaps the outcome, so that one half of a proof about the order is the other
half read backwards. -/
theorem strcmp_swap : strcmp b a = (strcmp a b).swap := by
  induction a generalizing b with
  | nil =>
    cases b with
    | nil => rfl
    | cons y b =>
      rw [strcmp, strcmp]
      split <;> rfl
  | cons x a ih =>
    cases b with
    | nil =>
      rw [strcmp, strcmp]
      split <;> rfl
    | cons y b =>
      rw [strcmp, strcmp]
      by_cases hxy : x = y
      · subst hxy
        simp only [ne_eq, not_true, if_false]
        split
        · rfl
        · exact ih
      · rw [if_pos hxy, if_pos (Ne.symm hxy)]
        exact Std.OrientedCmp.eq_swap

/-- Strings compare by their first bytes, or by the others where these are the same and no
terminator. -/
theorem strcmp_cons_lt {x y : UInt8} : strcmp (x :: a) (y :: b) = .lt ↔
    x < y ∨ x = y ∧ x ≠ 0 ∧ strcmp a b = .lt := by
  rw [strcmp]
  by_cases hxy : x = y
  · subst hxy
    by_cases hx : x = 0 <;> simp [hx]
  · rw [if_pos hxy, Std.compare_eq_lt]
    simp [hxy]

/-- The order of strings is transitive, also for those with zero bytes, which end where the first of
them stands. By induction on the first string, with the first bytes of the others: they differ, or
they are the same and not zero. -/
theorem strcmp_trans (hab : strcmp a b = .lt) (hbc : strcmp b c = .lt) : strcmp a c = .lt := by
  induction a generalizing b c with
  | nil =>
    cases b with
    | nil => cases hab
    | cons y b =>
      cases c with
      | nil =>
        rw [strcmp] at hbc
        split at hbc <;> cases hbc
      | cons z c =>
        have hy : y ≠ 0 := by
          rintro rfl
          cases hab
        have hz : z ≠ 0 := by
          rintro rfl
          rcases strcmp_cons_lt.mp hbc with hlt | ⟨rfl, hne, -⟩
          · simp at hlt
          · exact hne rfl
        rw [strcmp, if_neg hz]
  | cons x a ih =>
    cases b with
    | nil =>
      rw [strcmp] at hab
      split at hab <;> cases hab
    | cons y b =>
      cases c with
      | nil =>
        rw [strcmp] at hbc
        split at hbc <;> cases hbc
      | cons z c =>
        rw [strcmp_cons_lt] at hab hbc ⊢
        rcases hab with hxy | ⟨rfl, hx, hab⟩
        · rcases hbc with hyz | ⟨rfl, -, -⟩
          · exact .inl (UInt8.lt_trans hxy hyz)
          · exact .inl hxy
        · rcases hbc with hyz | ⟨rfl, -, hbc⟩
          · exact .inl hyz
          · exact .inr ⟨rfl, hx, ih hab hbc⟩

/-- Strings without a zero byte compare equal only if they are; a zero byte would end both of them.
-/
theorem strcmp_eq (ha : 0 ∉ a) (hb : 0 ∉ b) : strcmp a b = .eq ↔ a = b := by
  induction a generalizing b with
  | nil =>
    cases b with
    | nil => simp [strcmp]
    | cons y b => simp_all [strcmp, eq_comm]
  | cons x a ih =>
    obtain ⟨hx, ha⟩ : 0 ≠ x ∧ 0 ∉ a := by simpa using ha
    cases b with
    | nil => simp [strcmp, Ne.symm hx]
    | cons y b =>
      obtain ⟨-, hb⟩ : 0 ≠ y ∧ 0 ∉ b := by simpa using hb
      rw [strcmp, List.cons.injEq]
      by_cases hxy : x = y
      · simp [hxy, hxy ▸ Ne.symm hx, ih ha hb]
      · simp [hxy]

/-- An ascending table of strings. -/
theorem sortedFor_strcmp {xs : List Bytes} (h : xs.Pairwise fun x y => strcmp x y = .lt)
    (key : Bytes) : SortedFor (strcmp key) xs := by
  refine h.imp fun {x y} hxy => ⟨fun hx => strcmp_trans hx hxy, fun hy => ?_⟩
  have hyk : strcmp y key = .lt := by rw [strcmp_swap, hy]; rfl
  rw [strcmp_swap, strcmp_trans hxy hyk]
  rfl

end

end Eltn
