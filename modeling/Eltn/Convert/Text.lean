import Eltn.Convert.Order
import Eltn.Lib.Unicode
import Mathlib.Data.List.GetD

/-!
# Writing text as UTF-8

`C_Conv_char32_to_8` writes the UTF-8 form of a text whose code points it reads, if there is room
for it (`char32To8Loop_text`), and the text determines the code points (`char32To8Loop_inj`).
`C_Conv_char16_to_8` reads the units of a text one character at a time (`spells_char`).
-/

namespace Eltn

open Unicode

/-- The UTF-8 bytes of a text. -/
def utf8Text (text : List Char) : Bytes := text.flatMap String.utf8EncodeChar

/-! ## One code point -/

section
variable {c : Char} {text : List Char} {cp outsz j : Nat} {out : Bytes}

/-- The low `k` bits of a number below the leading bits `q`. -/
theorem or_and_mask (q k n : Nat) : q * 2 ^ k ||| ((2 ^ k - 1) &&& n) = n % 2 ^ k + q * 2 ^ k := by
  rw [Nat.and_comm, Nat.and_two_pow_sub_one_eq_mod, Nat.mul_comm q,
    ← Nat.two_pow_add_eq_or_of_lt (Nat.mod_lt _ (Nat.two_pow_pos k)), Nat.add_comm]

/-- Where a byte is left over behind the form, `write_utf8` writes the UTF-8 form. The masks and
shifts of the source are the quotients and remainders of the encoding. -/
theorem writeUtf8_room (hcp : cp < 2 ^ 21) (hroom : j + (utf8 cp).length < outsz) :
    writeUtf8 cp outsz j = utf8 cp := by
  have h80 (n : Nat) : 0x80 ||| (0x3F &&& n) = n % 0x40 + 0x80 := or_and_mask 2 6 n
  have hC0 (n : Nat) : 0xC0 ||| (0x1F &&& n) = n % 0x20 + 0xC0 := or_and_mask 6 5 n
  have hE0 (n : Nat) : 0xE0 ||| (0x0F &&& n) = n % 0x10 + 0xE0 := or_and_mask 14 4 n
  have hF0 (n : Nat) : 0xF0 ||| (0x07 &&& n) = n % 0x08 + 0xF0 := or_and_mask 30 3 n
  rw [writeUtf8]
  simp only [h80, hC0, hE0, hF0, Nat.shiftRight_eq_div_pow]
  unfold utf8 at hroom ⊢
  split at hroom
  · next h => rw [if_pos h, if_pos h]
  next h7F =>
  rw [if_neg h7F, if_neg h7F]
  split at hroom
  · next h => rw [if_pos ⟨h, hroom⟩, if_pos h]
  next h7FF =>
  rw [if_neg (fun h => h7FF h.1), if_neg h7FF]
  split at hroom
  · next h => rw [if_pos ⟨h, hroom⟩, if_pos h]
  next hFFFF =>
  rw [if_neg (fun h => hFFFF h.1), if_neg hFFFF, if_pos ⟨by omega, hroom⟩]

/-- Without room no byte of a longer form is written. The number of bytes is then zero, which ends
the loop. -/
theorem writeUtf8_full (hcp : cp < 2 ^ 21) (h7F : 0x7F < cp)
    (hroom : ¬ j + (utf8 cp).length < outsz) : writeUtf8 cp outsz j = [] := by
  have hlong : ¬ (cp ≤ 0x7FF ∧ j + 2 < outsz) ∧ ¬ (cp ≤ 0xFFFF ∧ j + 3 < outsz) ∧
      ¬ (cp ≤ 0x1FFFFF ∧ j + 4 < outsz) ∧ ¬ (cp ≤ 0x3FFFFF ∧ j + 5 < outsz) ∧
      ¬ (cp ≤ 0x7FFFFF ∧ j + 6 < outsz) := by
    unfold utf8 at hroom
    rw [if_neg (Nat.not_le.mpr h7F)] at hroom
    split at hroom
    · simp only [List.length_cons, List.length_nil] at hroom
      omega
    split at hroom <;> simp only [List.length_cons, List.length_nil] at hroom <;> omega
  rw [writeUtf8, if_neg (Nat.not_le.mpr h7F), if_neg hlong.1, if_neg hlong.2.1,
    if_neg hlong.2.2.1, if_neg hlong.2.2.2.1, if_neg hlong.2.2.2.2]

/-- An ASCII character is written without any test. -/
theorem writeUtf8_ascii (h7F : cp ≤ 0x7F) : writeUtf8 cp outsz j = utf8 cp := by
  rw [writeUtf8, utf8, if_pos h7F, if_pos h7F]

/-- Below 2²¹ the UTF-8 form is written, or nothing at all. -/
theorem writeUtf8_eq (hcp : cp < 2 ^ 21) :
    writeUtf8 cp outsz j = utf8 cp ∨ writeUtf8 cp outsz j = [] := by
  rcases Nat.lt_or_ge 0x7F cp with h7F | h7F
  · by_cases hroom : j + (utf8 cp).length < outsz
    · exact .inl (writeUtf8_room hcp hroom)
    · exact .inr (writeUtf8_full hcp h7F hroom)
  · exact .inl (writeUtf8_ascii h7F)

/-- More room changes nothing but whether a form is written. -/
theorem writeUtf8_mono {outsz' : Nat} (h : outsz ≤ outsz') :
    writeUtf8 cp outsz j = writeUtf8 cp outsz' j ∨ writeUtf8 cp outsz j = [] := by
  rw [writeUtf8, writeUtf8]
  grind

/-- The longer forms start with a byte that no UTF-8 form starts with, so that none of them can be
part of a text. -/
theorem writeUtf8_head (hcp : 2 ^ 21 ≤ cp) :
    ∀ b ∈ (writeUtf8 cp outsz j).head?, 0xF8 ≤ b.toNat := by
  have hF8 (n : Nat) : 0xF8 ||| (0x03 &&& n) = n % 0x04 + 0xF8 := or_and_mask 62 2 n
  have hFC (n : Nat) : 0xFC ||| (0x01 &&& n) = n % 0x02 + 0xFC := or_and_mask 126 1 n
  intro b hb
  rw [writeUtf8, if_neg (by omega), if_neg (by omega), if_neg (by omega), if_neg (by omega)] at hb
  split at hb
  · simp only [hF8, List.head?_cons, Option.mem_def, Option.some.injEq] at hb
    rw [← hb, UInt8.toNat_ofNat']
    omega
  split at hb
  · simp only [hFC, List.head?_cons, Option.mem_def, Option.some.injEq] at hb
    rw [← hb, UInt8.toNat_ofNat']
    omega
  · cases hb

/-- Characters are Unicode scalar values. -/
theorem char_valid (c : Char) : c.toNat < 0xD800 ∨ 0xDFFF < c.toNat ∧ c.toNat < 0x110000 := c.valid

/-- So they lie below 2²¹, where `write_utf8` has the forms of UTF-8. -/
theorem char_lt (c : Char) : c.toNat < 2 ^ 21 := by
  have := char_valid c
  omega

/-! ## UTF-32 -/

/-- The bytes of the first character come in front of those of the others. -/
theorem utf8Text_cons (c : Char) (text : List Char) :
    utf8Text (c :: text) = utf8 c.toNat ++ utf8Text text := by
  rw [utf8_char]
  rfl

/-- Code points with room for all of them are all written, one byte of the block being left over. -/
theorem char32To8Loop_text (hroom : out.length + (utf8Text text).length < outsz) :
    char32To8Loop outsz (text.map Char.toNat) out = out ++ utf8Text text := by
  induction text generalizing out with
  | nil => exact (List.append_nil out).symm
  | cons c text ih =>
    rw [utf8Text_cons, List.length_append] at hroom
    have hwrite : writeUtf8 c.toNat outsz out.length = utf8 c.toNat :=
      writeUtf8_room (char_lt c) (by omega)
    rw [List.map_cons, char32To8Loop, if_pos (by omega), hwrite]
    dsimp only
    rw [if_neg (utf8_ne_nil _), ih (by rw [List.length_append]; omega), utf8Text_cons,
      List.append_assoc]

/-- The loop adds bytes behind those that are written already. -/
theorem char32To8Loop_prefix (outsz : Nat) (cps : List Nat) (out : Bytes) :
    out <+: char32To8Loop outsz cps out := by
  induction cps generalizing out with
  | nil => exact List.prefix_rfl
  | cons cp cps ih =>
    rw [char32To8Loop]
    split
    · dsimp only
      split
      · exact List.prefix_rfl
      · exact (List.prefix_append _ _).trans (ih _)
    · exact List.prefix_rfl

/-- What is written for the first code point begins the text, and the loop writes the rest of it
behind. The code point has a form, and as many bytes of the text are that form. -/
theorem char32To8Loop_first {cps : List Nat}
    (h : char32To8Loop outsz (cp :: cps) out = out ++ utf8Text (c :: text)) :
    writeUtf8 cp outsz out.length ≠ [] ∧
      (∃ rest, writeUtf8 cp outsz out.length ++ rest = utf8 c.toNat ++ utf8Text text) ∧
      char32To8Loop outsz cps (out ++ writeUtf8 cp outsz out.length) =
        out ++ utf8Text (c :: text) := by
  have hne : ¬ out = out ++ utf8Text (c :: text) := by simp [utf8Text_cons, utf8_ne_nil]
  rw [char32To8Loop] at h
  split at h
  · dsimp only at h
    split at h
    · exact absurd h hne
    next hwritten =>
    obtain ⟨rest, hrest⟩ :=
      char32To8Loop_prefix outsz cps (out ++ writeUtf8 cp outsz out.length)
    rw [h, List.append_assoc] at hrest
    exact ⟨hwritten, ⟨rest, List.append_cancel_left hrest⟩, h⟩
  · exact absurd h hne

/-- The first code point is that of the text. -/
theorem char32To8Loop_head {cps : List Nat} (hcp : cp < 2 ^ 21)
    (h : char32To8Loop outsz (cp :: cps) out = out ++ utf8Text (c :: text)) :
    cp = c.toNat ∧ char32To8Loop outsz cps (out ++ utf8 cp) = out ++ utf8 cp ++ utf8Text text := by
  obtain ⟨hwritten, ⟨rest, heq⟩, hrest⟩ := char32To8Loop_first h
  rw [(writeUtf8_eq hcp).resolve_right hwritten] at heq hrest
  obtain ⟨rfl, -⟩ := utf8_append_inj hcp (char_lt c) heq
  rw [utf8Text_cons, ← List.append_assoc] at hrest
  exact ⟨rfl, hrest⟩

/-- **The text determines the code points it was written from**, if there are as many of them as it
has characters. -/
theorem char32To8Loop_inj {cps : List Nat} (hcps : ∀ cp ∈ cps, cp < 2 ^ 21)
    (hlen : cps.length = text.length) (h : char32To8Loop outsz cps out = out ++ utf8Text text) :
    cps = text.map Char.toNat := by
  induction cps generalizing text out with
  | nil => cases text <;> simp at hlen ⊢
  | cons cp cps ih =>
    cases text with
    | nil => cases hlen
    | cons c text =>
      obtain ⟨hcp, hothers⟩ := List.forall_mem_cons.mp hcps
      obtain ⟨rfl, hrest⟩ := char32To8Loop_head hcp h
      rw [ih hothers (by simpa using hlen) hrest, List.map_cons]

/-- A text is not written from a code point above 21 bits. Its form starts with a byte that is in no
text. -/
theorem char32To8_large {cps : List Nat} (hcp : 2 ^ 21 ≤ cp) :
    char32To8 (cp :: cps) outsz ≠ utf8Text (c :: text) := by
  intro h
  have hloop : char32To8Loop outsz (cp :: cps) [] = [] ++ utf8Text (c :: text) := h
  obtain ⟨hwritten, ⟨rest, heq⟩, -⟩ := char32To8Loop_first hloop
  obtain ⟨a, as, ha⟩ := List.exists_cons_of_ne_nil hwritten
  obtain ⟨b, bs, hb⟩ := List.exists_cons_of_ne_nil (utf8_ne_nil c.toNat)
  rw [ha, hb, List.cons_append, List.cons_append] at heq
  have hlow := utf8_head_lt c.toNat b (by rw [hb]; rfl)
  have hmem : a ∈ (writeUtf8 cp outsz ([] : Bytes).length).head? := by rw [ha]; rfl
  have hhigh := writeUtf8_head hcp a hmem
  rw [(List.cons.inj heq).1] at hhigh
  omega

/-! ## UTF-16 -/

/-- The units of a text. -/
def units (text : List Char) : List Nat := text.flatMap fun c => utf16 c.toNat

/-- The units of the first character come in front of those of the others. -/
theorem units_cons (c : Char) (text : List Char) :
    units (c :: text) = utf16 c.toNat ++ units text := rfl

/-- The code point of a pair of surrogates, from their ten bits each. -/
theorem surrogatePair_eq (h l : Nat) :
    surrogatePair (0xD800 + h) (0xDC00 + l) = 0x10000 + h * 0x400 + l := by
  show 0x10000 + ((0xD800 + h - 0xD800) <<< 10) + (0xDC00 + l - 0xDC00) = _
  omega

/-- The units that `read_utf16` takes for a code point: a unit that is no surrogate, or a high and a
low surrogate in either order. -/
inductive Spells : List Nat → Nat → Prop where
  | unit {u : Nat} (hlt : u < 0x10000) (hu : isSurrogate u = false) : Spells [u] u
  | pair {h l : Nat} (hh : isHighSurrogate h = true) (hl : isLowSurrogate l = true) :
    Spells [h, l] (surrogatePair h l)
  | swapped {h l : Nat} (hh : isHighSurrogate h = true) (hl : isLowSurrogate l = true) :
    Spells [l, h] (surrogatePair h l)

/-- The high surrogates as a range. -/
theorem isHighSurrogate_iff {v : Nat} : isHighSurrogate v = true ↔ 0xD800 ≤ v ∧ v ≤ 0xDBFF := by
  simp only [isHighSurrogate, Bool.and_eq_true, decide_eq_true_eq]

/-- The low surrogates as a range. -/
theorem isLowSurrogate_iff {v : Nat} : isLowSurrogate v = true ↔ 0xDC00 ≤ v ∧ v ≤ 0xDFFF := by
  simp only [isLowSurrogate, Bool.and_eq_true, decide_eq_true_eq]

/-- A surrogate is a high or a low one. -/
theorem isSurrogate_iff {v : Nat} :
    isSurrogate v = true ↔ isHighSurrogate v = true ∨ isLowSurrogate v = true := by
  rw [isHighSurrogate_iff, isLowSurrogate_iff]
  simp only [isSurrogate, Bool.and_eq_true, decide_eq_true_eq]
  omega

/-- No unit is a high and a low surrogate. -/
theorem high_ne_low {v : Nat} (hl : isLowSurrogate v = true) : isHighSurrogate v = false := by
  rw [Bool.eq_false_iff]
  intro hh
  have hhigh := isHighSurrogate_iff.mp hh
  have hlow := isLowSurrogate_iff.mp hl
  omega

/-- A code point is spelled with one unit at least. -/
theorem Spells.length_pos {first : List Nat} (h : Spells first cp) : 0 < first.length := by
  cases h <;> simp

/-- What units spell lies below 2²¹. -/
theorem Spells.lt {first : List Nat} (h : Spells first cp) : cp < 2 ^ 21 := by
  cases h with
  | unit hlt => omega
  | pair hh hl | swapped hh hl =>
    have hhigh := isHighSurrogate_iff.mp hh
    have hlow := isLowSurrogate_iff.mp hl
    unfold surrogatePair
    omega

/-- `read_utf16` by the units it looks at: the one at its index, and the next if that is a
surrogate. -/
theorem readUtf16_append (pre s : List Nat) : readUtf16 (pre ++ s) pre.length =
    if isSurrogate (s.getD 0 0) = false then (s.getD 0 0, 1)
    else if isHighSurrogate (s.getD 0 0) && isLowSurrogate (s.getD 1 0) then
      (surrogatePair (s.getD 0 0) (s.getD 1 0), 2)
    else if isHighSurrogate (s.getD 1 0) && isLowSurrogate (s.getD 0 0) then
      (surrogatePair (s.getD 1 0) (s.getD 0 0), 2)
    else (0, 0) := by
  have hfirst : (pre ++ s).getD pre.length 0 = s.getD 0 0 := by
    rw [List.getD_append_right _ _ _ _ le_rfl, Nat.sub_self]
  have hsecond : (pre ++ s).getD (pre.length + 1) 0 = s.getD 1 0 := by
    rw [List.getD_append_right _ _ _ _ (Nat.le_add_right _ 1), Nat.add_sub_cancel_left]
  rw [readUtf16, hfirst, hsecond]
  simp only [Bool.not_eq_true']

/-- `read_utf16` reads them, whatever stands around them. -/
theorem Spells.read {first : List Nat} (h : Spells first cp) (pre post : List Nat) :
    readUtf16 (pre ++ (first ++ post)) pre.length = (cp, first.length) := by
  rw [readUtf16_append]
  cases h with
  | unit hlt hu => simp [hu]
  | pair hh hl =>
    have hsur := isSurrogate_iff.mpr (.inl hh)
    simp [hsur, hh, hl]
  | swapped hh hl =>
    have hsur := isSurrogate_iff.mpr (.inr hl)
    simp [hsur, high_ne_low hl, hh, hl]

/-- The units of a character: one unit that is no surrogate, or two that make a pair. Below 0x10000
it is the character itself, and no surrogate since a character is none. -/
theorem spells_char (c : Char) : Spells (utf16 c.toNat) c.toNat := by
  have hvalid := char_valid c
  generalize c.toNat = v at hvalid ⊢
  rw [utf16]
  split
  · next hlow =>
    refine .unit hlow ?_
    simp only [isSurrogate, Bool.and_eq_false_iff, decide_eq_false_iff_not]
    omega
  · next hhigh =>
    have hpair : surrogatePair (0xD800 + (v - 0x10000) / 0x400) (0xDC00 + (v - 0x10000) % 0x400) =
        v := by
      rw [surrogatePair_eq]
      omega
    have hspells : Spells [0xD800 + (v - 0x10000) / 0x400, 0xDC00 + (v - 0x10000) % 0x400]
        (surrogatePair (0xD800 + (v - 0x10000) / 0x400) (0xDC00 + (v - 0x10000) % 0x400)) :=
      .pair (isHighSurrogate_iff.mpr (by omega)) (isLowSurrogate_iff.mpr (by omega))
    rwa [hpair] at hspells

/-- The index of the bytes written stays an `int`, as the loop has no result otherwise. By induction
on the turns, each of which tests the index before it goes on. -/
theorem length_char16To8Loop {inbuf : List Nat} {fuel i : Nat} {out' : Bytes}
    (hout : out.length ≤ intMax) (h : char16To8Loop inbuf outsz fuel i out = some out') :
    out'.length ≤ intMax := by
  induction fuel generalizing i out with
  | zero =>
    cases h
    exact hout
  | succ fuel ih =>
    rw [char16To8Loop] at h
    split at h
    · dsimp only at h
      split at h
      · cases h
        exact hout
      split at h
      · cases h
      split at h
      · cases h
        exact hout
      split at h
      · cases h
      · next hle => exact ih (by rw [List.length_append]; omega) h
    · cases h
      exact hout

end

end Eltn
