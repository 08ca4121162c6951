import Mathlib.Data.Nat.Find
import Mathlib.Data.List.Infix

/-!
# Reading up to a pattern

`readUntil stop text s` reads the elements of `s` one by one behind `text` until `stop` holds of all
that was read. Where `stop` asks for a pattern at the end, and the pattern cannot reach back into
`text`, it reads up to the first occurrence of the pattern in `s` (`readUntil_first`), and through
all of `s` if there is none (`readUntil_absent`).
-/

namespace Occurs

variable {α : Type*} {stop : List α → Bool} {pat text s front rest span : List α} {a : α}

/-- The first occurrence of a pattern in a list, with what is before and behind it. -/
structure First (pat s front rest : List α) : Prop where
  eq : s = front ++ pat ++ rest
  first : ∀ front' rest', s = front' ++ pat ++ rest' → front.length ≤ front'.length

/-- A pattern that occurs in a list has a first occurrence, the one with the least in front of it.
-/
theorem exists_first (h : pat <:+: s) : ∃ front rest, First pat s front rest := by
  classical
  have hex : ∃ n, ∃ front rest, s = front ++ pat ++ rest ∧ front.length = n := by
    obtain ⟨front, rest, heq⟩ := h
    exact ⟨front.length, front, rest, heq.symm, rfl⟩
  obtain ⟨front, rest, heq, hlen⟩ := Nat.find_spec hex
  refine ⟨front, rest, heq, fun front' rest' heq' => ?_⟩
  rw [hlen]
  exact Nat.find_min' hex ⟨front', rest', heq', rfl⟩

/-- The elements of `s` read behind `text` until `stop` holds of all that was read, and those left;
nothing where it never does. -/
def readUntil (stop : List α → Bool) : List α → List α → Option (List α × List α)
  | _, [] => none
  | text, c :: s =>
    if stop (text ++ [c]) then some (text ++ [c], s) else readUntil stop (text ++ [c]) s

/-- What is read until a condition holds is the shortest front on which it does: a span on which it
holds, and on no shorter part of which it held. -/
theorem readUntil_some (hne : span ≠ []) (hstop : stop (text ++ span) = true)
    (hfirst : ∀ p, p <+: span → p ≠ [] → p ≠ span → stop (text ++ p) = false) :
    readUntil stop text (span ++ rest) = some (text ++ span, rest) := by
  induction span generalizing text with
  | nil => exact absurd rfl hne
  | cons c span ih =>
    rw [List.cons_append, readUntil]
    by_cases hspan : span = []
    · subst hspan
      rw [if_pos hstop]
      rfl
    · have hc : stop (text ++ [c]) = false :=
        hfirst [c] (by simp) (by simp) (by simpa using Ne.symm hspan)
      rw [hc, if_neg (by simp), ih hspan (by simpa using hstop) ?_]
      · simp
      · intro p hp hpne hps
        have := hfirst (c :: p) (List.cons_prefix_cons.mpr ⟨rfl, hp⟩) (by simp) (by simpa using hps)
        simpa using this

/-- If it holds on no front nothing is read. All of the list is read in vain. -/
theorem readUntil_none (hnone : ∀ p, p <+: s → p ≠ [] → stop (text ++ p) = false) :
    readUntil stop text s = none := by
  induction s generalizing text with
  | nil => rfl
  | cons c s ih =>
    rw [readUntil, hnone [c] (by simp) (by simp), if_neg (by simp)]
    refine ih fun p hp hpne => ?_
    have := hnone (c :: p) (List.cons_prefix_cons.mpr ⟨rfl, hp⟩) (by simp)
    simpa using this

/-! ## Patterns -/

/-- A pattern cannot reach back over an element it does not have. -/
theorem suffix_behind (ha : a ∉ pat) : pat <:+ text ++ [a] ++ s ↔ pat <:+ s := by
  constructor
  · rintro ⟨front, heq⟩
    rcases List.append_eq_append_iff.mp heq with ⟨gap, htext, hpat⟩ | ⟨gap, -, hs⟩
    · rcases List.eq_nil_or_concat gap with rfl | ⟨init, b, rfl⟩
      · exact ⟨[], hpat⟩
      · rw [List.concat_eq_append, ← List.append_assoc] at htext
        obtain rfl : b = a := by simpa using (List.append_inj' htext rfl).2.symm
        exact absurd (hpat ▸ by simp) ha
    · exact ⟨gap, hs.symm⟩
  · exact fun h => h.trans (List.suffix_append _ _)

section
variable (hstop : ∀ t, stop t = true ↔ pat <:+ t) (ha : a ∉ pat)
include hstop ha

/-- Where the condition is that a pattern ends the text, reading stops behind its first occurrence.
-/
theorem readUntil_first (hne : pat ≠ []) (h : First pat s front rest) :
    readUntil stop (text ++ [a]) s = some (text ++ [a] ++ (front ++ pat), rest) := by
  rw [h.eq]
  refine readUntil_some (by simp [hne]) ((hstop _).mpr ?_) fun p hp _ hps => ?_
  · rw [← List.append_assoc]
    exact List.suffix_append _ _
  · rw [Bool.eq_false_iff, Ne, hstop, suffix_behind ha]
    rintro ⟨front', rfl⟩
    obtain ⟨tail, htail⟩ := hp
    have hle := h.first front' (tail ++ rest) (by rw [h.eq, ← htail]; simp)
    have hlen := congrArg List.length htail
    simp only [List.length_append] at hlen
    have hnil : tail = [] := List.eq_nil_of_length_eq_zero (by omega)
    rw [hnil, List.append_nil] at htail
    exact hps htail

/-- Where the pattern does not occur reading never stops. -/
theorem readUntil_absent (h : ¬ pat <:+: s) : readUntil stop (text ++ [a]) s = none := by
  refine readUntil_none fun p hp _ => ?_
  rw [Bool.eq_false_iff, Ne, hstop, suffix_behind ha]
  exact fun hsuf => h (hsuf.isInfix.trans hp.isInfix)

end

end Occurs
