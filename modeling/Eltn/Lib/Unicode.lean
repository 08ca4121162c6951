import Mathlib.Algebra.Ring.Nat
import Mathlib.Data.List.Basic
import Mathlib.Tactic.Common

/-!
# Unicode transformation formats

The UTF-8 form of the numbers of up to 21 bits, which on Unicode scalar values is the encoding of
`String`, and the UTF-16 form. No UTF-8 form continues another (`utf8_append_inj`), so a sequence of
numbers is determined by its bytes.
-/

namespace Unicode

/-- The UTF-8 form of a number below `2 ^ 21`, in one to four bytes. Surrogates have one too, as
nothing but the size of the number is looked at. -/
def utf8 (v : Nat) : List UInt8 :=
  if v ≤ 0x7F then [UInt8.ofNat v]
  else if v ≤ 0x7FF then [UInt8.ofNat (v / 64 % 0x20 + 0xC0), UInt8.ofNat (v % 0x40 + 0x80)]
  else if v ≤ 0xFFFF then
    [UInt8.ofNat (v / 4096 % 0x10 + 0xE0), UInt8.ofNat (v / 64 % 0x40 + 0x80),
      UInt8.ofNat (v % 0x40 + 0x80)]
  else
    [UInt8.ofNat (v / 262144 % 0x08 + 0xF0), UInt8.ofNat (v / 4096 % 0x40 + 0x80),
      UInt8.ofNat (v / 64 % 0x40 + 0x80), UInt8.ofNat (v % 0x40 + 0x80)]

/-- The UTF-16 form of a number below `0x110000`: itself or a surrogate pair. -/
def utf16 (v : Nat) : List Nat :=
  if v < 0x10000 then [v]
  else [0xD800 + (v - 0x10000) / 0x400, 0xDC00 + (v - 0x10000) % 0x400]

section
variable {v w : Nat} {s t : List UInt8}

/-- The encoding of a code point is that of its character. -/
theorem utf8_char (c : Char) : utf8 c.toNat = String.utf8EncodeChar c := rfl

/-- Every code point has at least one byte. -/
theorem utf8_ne_nil (v : Nat) : utf8 v ≠ [] := by
  unfold utf8
  repeat' split
  all_goals simp

/-- No form starts with a byte from `0xF8` on. -/
theorem utf8_head_lt (v : Nat) : ∀ b ∈ (utf8 v).head?, b.toNat < 0xF8 := by
  intro b hb
  unfold utf8 at hb
  repeat' split at hb
  all_goals
    simp only [List.head?_cons, Option.mem_def, Option.some.injEq] at hb
    rw [← hb, UInt8.toNat_ofNat']
    omega

/-- **No form continues another**: two texts that start with a form start with the same one, so that
a text is read in one way only. -/
theorem utf8_append_inj (hv : v < 2 ^ 21) (hw : w < 2 ^ 21) (h : utf8 v ++ s = utf8 w ++ t) :
    v = w ∧ s = t := by
  have heq : v = w := by
    have hnat := congrArg (List.map UInt8.toNat) h
    unfold utf8 at hnat
    repeat' split at hnat
    all_goals
      simp only [List.map_append, List.map_cons, List.map_nil, UInt8.toNat_ofNat', List.cons_append,
        List.cons.injEq] at hnat
      omega
  subst heq
  exact ⟨rfl, List.append_cancel_left h⟩

end

end Unicode
