import Eltn.Convert.Room
import Eltn.Lib.Rfc2279

/-!
# The five- and six-byte forms

What `C_Conv_char32_to_8` writes for code points above 21 bits, read back in the original scheme of
up to six bytes. The five-byte form is right. The six-byte form has one group of bits twice and none
above bit 24, so it is the form of another number (`misread`).
-/

namespace Eltn

open Rfc2279 (lead continuation decode_form decodeFrom)

/-- The number whose six-byte form `write_utf8` stores. -/
def misread (cp : Nat) : Nat :=
  cp / 2 ^ 18 % 64 * 64 ^ 4 + cp / 2 ^ 12 % 64 * 64 ^ 3 + cp / 64 % 64 * 64 ^ 2 +
    cp / 64 % 64 * 64 + cp % 64

section
variable {cp outsz : Nat} {cps : List Nat} {out : Bytes}

/-- Code points of 22 bits have a form of five bytes, which is the one of the standard. -/
theorem form_five (hlo : 0x1FFFFF < cp) (hhi : cp ≤ 0x3FFFFF) :
    form cp = 0xF8 :: continuation 4 cp := by
  have h80 (n : Nat) : 0x80 ||| (0x3F &&& n) = n % 0x40 + 0x80 := or_and_mask 2 6 n
  have hF8 (n : Nat) : 0xF8 ||| (0x03 &&& n) = n % 0x04 + 0xF8 := or_and_mask 62 2 n
  have hlead : cp / 2 ^ 24 = 0 := by omega
  rw [form, writeUtf8, if_neg (by omega), if_neg (by omega), if_neg (by omega), if_neg (by omega),
    if_pos ⟨hhi, by omega⟩]
  simp only [h80, hF8, Nat.shiftRight_eq_div_pow, hlead]
  simp [continuation]

/-- The groups of six bits that are stored, from the upper one on, are the continuation bytes of the
number that they make. -/
theorem continuation_groups {a b c d e : Nat} (ha : a < 64) (hb : b < 64) (hc : c < 64)
    (hd : d < 64) (he : e < 64) :
    continuation 5 (a * 64 ^ 4 + b * 64 ^ 3 + c * 64 ^ 2 + d * 64 + e) =
      [UInt8.ofNat (a + 0x80), UInt8.ofNat (b + 0x80), UInt8.ofNat (c + 0x80),
        UInt8.ofNat (d + 0x80), UInt8.ofNat (e + 0x80)] := by
  have h4 : (a * 64 ^ 4 + b * 64 ^ 3 + c * 64 ^ 2 + d * 64 + e) / 64 ^ 4 % 64 = a := by omega
  have h3 : (a * 64 ^ 4 + b * 64 ^ 3 + c * 64 ^ 2 + d * 64 + e) / 64 ^ 3 % 64 = b := by omega
  have h2 : (a * 64 ^ 4 + b * 64 ^ 3 + c * 64 ^ 2 + d * 64 + e) / 64 ^ 2 % 64 = c := by omega
  have h1 : (a * 64 ^ 4 + b * 64 ^ 3 + c * 64 ^ 2 + d * 64 + e) / 64 ^ 1 % 64 = d := by omega
  have h0 : (a * 64 ^ 4 + b * 64 ^ 3 + c * 64 ^ 2 + d * 64 + e) / 64 ^ 0 % 64 = e := by omega
  rw [continuation, continuation, continuation, continuation, continuation, continuation,
    h4, h3, h2, h1, h0]

/-- Code points of 23 bits have a form of six bytes, but one that stands for another number: the
fourth and the fifth byte are both those of the last twelve bits. -/
theorem form_six (hlo : 0x3FFFFF < cp) (hhi : cp ≤ 0x7FFFFF) :
    form cp = 0xFC :: continuation 5 (misread cp) := by
  have h80 (n : Nat) : 0x80 ||| (0x3F &&& n) = n % 0x40 + 0x80 := or_and_mask 2 6 n
  have hFC (n : Nat) : 0xFC ||| (0x01 &&& n) = n % 0x02 + 0xFC := or_and_mask 126 1 n
  have hlead : cp / 2 ^ 24 = 0 := by omega
  have hgroup (n : Nat) : n % 64 < 64 := Nat.mod_lt n (by omega)
  rw [misread, continuation_groups (hgroup _) (hgroup _) (hgroup _) (hgroup _) (hgroup _), form,
    writeUtf8, if_neg (by omega), if_neg (by omega), if_neg (by omega), if_neg (by omega),
    if_neg (by omega), if_pos ⟨hhi, by omega⟩]
  simp only [h80, hFC, Nat.shiftRight_eq_div_pow, hlead]
  rfl

/-- The bits above bit 18 are moved up. -/
theorem misread_ne (hlo : 0x3FFFFF < cp) (hhi : cp ≤ 0x7FFFFF) : misread cp % 64 ^ 5 ≠ cp := by
  have hlow : cp / 2 ^ 12 % 64 < 64 ∧ cp / 64 % 64 < 64 ∧ cp % 64 < 64 := by omega
  have hhigh : 16 ≤ cp / 2 ^ 18 % 64 ∧ cp / 2 ^ 18 % 64 < 64 := by omega
  unfold misread
  generalize cp / 2 ^ 18 % 64 = a, cp / 2 ^ 12 % 64 = b, cp / 64 % 64 = c, cp % 64 = d at *
  have hlt : a * 64 ^ 4 + b * 64 ^ 3 + c * 64 ^ 2 + c * 64 + d < 64 ^ 5 := by omega
  rw [Nat.mod_eq_of_lt hlt]
  omega

/-- The form of five bytes is decoded to the code point. -/
theorem decode_five (hlo : 0x1FFFFF < cp) (hhi : cp ≤ 0x3FFFFF) (s : Bytes) :
    Rfc2279.decode (form cp ++ s) = (Rfc2279.decode s).map (cp :: ·) := by
  have hlead : lead 0xF8 = some (0, 3 + 1) := rfl
  have hread := decode_form hlead cp s
  have hval : 0 * 64 ^ (3 + 1) + cp % 64 ^ (3 + 1) = cp := by omega
  rw [hval] at hread
  rw [form_five hlo hhi, List.cons_append, hread]

/-- The form of six bytes is decoded to the number that was misread. -/
theorem decode_six (hlo : 0x3FFFFF < cp) (hhi : cp ≤ 0x7FFFFF) (s : Bytes) :
    Rfc2279.decode (form cp ++ s) = (Rfc2279.decode s).map ((misread cp % 64 ^ 5) :: ·) := by
  have hlead : lead 0xFC = some (0, 4 + 1) := rfl
  have hread := decode_form hlead (misread cp) s
  rw [Nat.zero_mul, Nat.zero_add] at hread
  rw [form_six hlo hhi, List.cons_append, hread]

/-- The form of five bytes has five bytes. -/
theorem length_form_five (hlo : 0x1FFFFF < cp) (hhi : cp ≤ 0x3FFFFF) : (form cp).length = 5 := by
  rw [form_five hlo hhi]
  rfl

/-- What is written, up to a code point that has no room or a wrong form: code points of six bytes
are written, and read back as others. By induction on the code points, the text written so far being
free. -/
theorem char32To8Loop_decode (hcps : ∀ cp ∈ cps, 0x1FFFFF < cp ∧ cp ≤ 0x7FFFFF) (out : Bytes)
    (hroom : out.length + 5 * cps.length < outsz) :
    ∃ text, char32To8Loop outsz cps out = out ++ text ∧
      (Rfc2279.decode text = some cps ↔ ∀ cp ∈ cps, cp ≤ 0x3FFFFF) := by
  induction cps generalizing out with
  | nil => exact ⟨[], (List.append_nil out).symm, by simp [Rfc2279.decode, decodeFrom]⟩
  | cons cp cps ih =>
    obtain ⟨⟨hlo, hhi⟩, hothers⟩ := List.forall_mem_cons.mp hcps
    rw [List.length_cons, Nat.mul_succ] at hroom
    rw [char32To8Loop, if_pos (by omega), writeUtf8_form]
    dsimp only
    rcases Nat.lt_or_ge 0x3FFFFF cp with hsix | hfive
    · have hwrong : ¬ ∀ c ∈ cp :: cps, c ≤ 0x3FFFFF := fun h =>
        absurd (h cp List.mem_cons_self) (Nat.not_le.mpr hsix)
      split
      · obtain ⟨text, htext⟩ := char32To8Loop_prefix outsz cps (out ++ form cp)
        rw [if_neg (form_ne_nil_iff.mpr hhi)]
        refine ⟨form cp ++ text, by rw [← htext, List.append_assoc], iff_of_false ?_ hwrong⟩
        rw [decode_six hsix hhi]
        intro h
        obtain ⟨rest, -, hrest⟩ := Option.map_eq_some_iff.mp h
        exact misread_ne hsix hhi (List.cons.inj hrest).1
      · rw [if_pos rfl]
        exact ⟨[], (List.append_nil out).symm,
          iff_of_false (by simp [Rfc2279.decode, decodeFrom]) hwrong⟩
    · have hlen := length_form_five hlo hfive
      obtain ⟨text, htext, hdecode⟩ := ih hothers (out ++ form cp)
        (by rw [List.length_append]; omega)
      have hfits : cp ≤ 0x7F ∨ out.length + (form cp).length < outsz := .inr (by omega)
      rw [if_pos hfits, if_neg (form_ne_nil_iff.mpr hhi)]
      refine ⟨form cp ++ text, by rw [htext, List.append_assoc], ?_⟩
      rw [decode_five hlo hfive, List.forall_mem_cons, and_iff_right hfive, ← hdecode]
      cases Rfc2279.decode text with
      | none => simp
      | some rest => simp

end

/-- **When the long forms are read back.** For all code points above `0x1FFFFF` and at most
`0x7FFFFF`, with more room than five bytes each, the bytes written are read back as these code
points iff none of them is above `0x3FFFFF`. In the form of six bytes the source stores `cp >> 6`
twice, and the bits above that one byte before their place. -/
theorem long_forms_iff {cps : List Nat} {outsz : Nat}
    (hcps : ∀ cp ∈ cps, 0x1FFFFF < cp ∧ cp ≤ 0x7FFFFF) (hroom : 5 * cps.length < outsz) :
    Rfc2279.decode (char32To8 cps outsz) = some cps ↔ ∀ cp ∈ cps, cp ≤ 0x3FFFFF := by
  obtain ⟨text, hloop, hdecode⟩ := char32To8Loop_decode hcps [] (by simpa using hroom)
  rw [← hdecode, char32To8, hloop, List.nil_append]

/-- The last code point that has a five-byte form. -/
theorem long_forms_example : Rfc2279.decode (char32To8 [0x3FFFFF] 6) = some [0x3FFFFF] := by
  have hrange : ∀ cp ∈ [0x3FFFFF], 0x1FFFFF < cp ∧ cp ≤ 0x7FFFFF :=
    List.forall_mem_singleton.mpr ⟨by omega, by omega⟩
  have hroom : 5 * [0x3FFFFF].length < 6 := Nat.lt_succ_self 5
  exact (long_forms_iff hrange hroom).mpr (List.forall_mem_singleton.mpr (Nat.le_refl _))

/-- The first that is written in six bytes. -/
theorem long_forms_fails :
    char32To8 [0x400000] 7 = [0xFC, 0x90, 0x80, 0x80, 0x80, 0x80] ∧
      Rfc2279.decode (char32To8 [0x400000] 7) = some [0x10000000] ∧
      Rfc2279.decode (char32To8 [0x400000] 7) ≠ some [0x400000] := by
  decide +kernel

end Eltn
