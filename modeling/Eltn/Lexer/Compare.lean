import Eltn.Lexer.Basic

/-!
# The comparisons of the token buffer

The lexer compares its token with strings by `strncmp`. Without zero bytes in the shorter string,
`token_buffer_equals` holds of the fronts of a string, `token_buffer_starts_with` of what starts
with it and `token_buffer_ends_with` of what ends with it.
-/

namespace Eltn

variable {token str : Bytes}

/-- `strncmp` with the length of the first string tells whether that is a front of the second. It
has no zero byte, at which the comparison would stop. -/
theorem strncmpEq_front (h : 0 ∉ token) :
    strncmpEq token str token.length = true ↔ token <+: str := by
  induction token generalizing str with
  | nil => simp [strncmpEq]
  | cons c token ih =>
    obtain ⟨hc, hw⟩ : 0 ≠ c ∧ 0 ∉ token := by simpa using h
    rw [List.length_cons, strncmpEq, List.headD_cons, List.tail_cons]
    cases str with
    | nil => simp [Ne.symm hc]
    | cons d str =>
      rw [List.headD_cons, List.tail_cons, List.cons_prefix_cons]
      by_cases hcd : c = d
      · simp [hcd, hcd ▸ Ne.symm hc, ih hw]
      · simp [hcd]

/-- `strncmp` does not depend on the order of the strings. -/
theorem strncmpEq_comm (a b : Bytes) (n : Nat) : strncmpEq a b n = strncmpEq b a n := by
  induction n generalizing a b with
  | zero => rfl
  | succ n ih =>
    rw [strncmpEq, strncmpEq]
    by_cases hab : a.headD 0 = b.headD 0
    · rw [if_neg (not_not.mpr hab), if_neg (not_not.mpr hab.symm), hab, ih]
    · rw [if_pos hab, if_pos (Ne.symm hab)]

namespace Lexer

/-- The comparison that is meant for equality holds of every front of the string: it compares over
the length of the token. -/
theorem tokenBufferEquals_iff (h : 0 ∉ token) :
    tokenBufferEquals token str = true ↔ token <+: str :=
  strncmpEq_front h

/-- The comparison at the front is the relation on lists. -/
theorem tokenBufferStartsWith_iff (h : 0 ∉ str) :
    tokenBufferStartsWith token str = true ↔ str <+: token := by
  rw [tokenBufferStartsWith, strncmpEq_comm]
  exact strncmpEq_front h

/-- The comparison at the end is the relation on lists, also where the token is shorter than the
string. -/
theorem tokenBufferEndsWith_iff (h : 0 ∉ str) :
    tokenBufferEndsWith token str = true ↔ str <:+ token := by
  rw [tokenBufferEndsWith, strncmpEq_comm, strncmpEq_front h]
  constructor
  · intro hpre
    have hlen := hpre.length_le
    rw [List.length_drop] at hlen
    rw [hpre.eq_of_length (by rw [List.length_drop]; omega)]
    exact List.drop_suffix _ _
  · rintro ⟨front, rfl⟩
    have hdrop : (front ++ str).drop ((front ++ str).length - str.length) = str := by
      rw [List.length_append, Nat.add_sub_cancel, List.drop_left]
    exact hdrop.symm ▸ List.prefix_refl str

end Lexer

end Eltn
