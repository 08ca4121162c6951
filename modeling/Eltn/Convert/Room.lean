import Eltn.Convert.Units

/-!
# Room and counts

The longer forms of `write_utf8` ask for one byte more than they store. So all code points are
written iff a byte is left over or the last of them takes one byte only (`char32To8Loop_all_iff`),
and this decides whether a block of the exact size is enough (`exact_room_iff`), and whether
`C_Conv_to_char8`, which reports all units of its input as read, has converted them
(`counts_match_iff`).
-/

namespace Eltn

open Unicode

/-! ## All code points -/

/-- The bytes of a code point, where there is room for any form; none above 23 bits. -/
def form (cp : Nat) : Bytes := writeUtf8 cp 7 0

/-- Behind `j` bytes there is room for the code points as `write_utf8` sees it. -/
def Fits (j : Nat) (cps : List Nat) (outsz : Nat) : Prop :=
  cps = [] ∨ j + (cps.flatMap form).length < outsz ∨
    (j + (cps.flatMap form).length = outsz ∧ ∀ cp ∈ cps.getLast?, cp ≤ 0x7F)

section
variable {cp outsz j : Nat} {cps us : List Nat} {c : Char} {text : List Char} {out : Bytes}

/-- `write_utf8` has a form for every code point of 23 bits, and for no other. -/
theorem form_ne_nil_iff : form cp ≠ [] ↔ cp ≤ 0x7FFFFF := by
  rw [form, writeUtf8]
  constructor
  · intro h
    by_contra hcp
    refine h ?_
    rw [if_neg (by omega), if_neg (by omega), if_neg (by omega), if_neg (by omega),
      if_neg (by omega), if_neg (by omega)]
  · intro h
    repeat' split
    all_goals first | exact List.cons_ne_nil _ _ | omega

/-- Up to 21 bits the form is UTF-8. -/
theorem form_utf8 (hcp : cp < 2 ^ 21) : form cp = utf8 cp := by
  rw [form]
  refine writeUtf8_room hcp ?_
  unfold utf8
  repeat' split
  all_goals simp

/-- Which room makes `write_utf8` store the form: any for one byte, and one byte more than it takes
for the others. -/
theorem writeUtf8_form (cp outsz j : Nat) : writeUtf8 cp outsz j =
    if cp ≤ 0x7F ∨ j + (form cp).length < outsz then form cp else [] := by
  unfold form writeUtf8
  rcases Nat.lt_or_ge 0x7F cp with h7F | h7F
  · rcases Nat.lt_or_ge 0x7FF cp with h7FF | h7FF
    · rcases Nat.lt_or_ge 0xFFFF cp with hFFFF | hFFFF
      · rcases Nat.lt_or_ge 0x1FFFFF cp with h1FFFFF | h1FFFFF
        · rcases Nat.lt_or_ge 0x3FFFFF cp with h3FFFFF | h3FFFFF
          · grind
          · grind
        · grind
      · grind
    · grind
  · rw [if_pos h7F, if_pos h7F, if_pos (.inl h7F)]

/-- An ASCII character takes one byte. -/
theorem length_form_ascii (hcp : cp ≤ 0x7F) : (form cp).length = 1 := by
  rw [form, writeUtf8, if_pos hcp]
  rfl

/-- A form that is not empty has at least one byte. -/
theorem form_pos (hcp : form cp ≠ []) : 0 < (form cp).length := List.length_pos_iff.mpr hcp

/-- The room for all code points is room for the first, and for the others behind it. A longer form
asks for one byte more than it takes. -/
theorem fits_cons (hcp : form cp ≠ []) (hcps : ∀ c ∈ cps, form c ≠ []) :
    Fits j (cp :: cps) outsz ↔
      j < outsz ∧ (cp ≤ 0x7F ∨ j + (form cp).length < outsz) ∧
        Fits (j + (form cp).length) cps outsz := by
  have hpos := form_pos hcp
  cases cps with
  | nil =>
    simp only [Fits, List.flatMap_cons, List.flatMap_nil, List.append_nil, List.cons_ne_nil,
      false_or, List.getLast?_singleton, Option.mem_def, Option.some.injEq, forall_eq',
      true_or, and_true]
    constructor
    · rintro (hlt | ⟨heq, hascii⟩)
      · exact ⟨by omega, .inr hlt⟩
      · exact ⟨by omega, .inl hascii⟩
    · rintro ⟨hj, hascii | hlt⟩
      · have := length_form_ascii hascii
        omega
      · exact .inl hlt
  | cons c cps =>
    have hnext := form_pos (hcps c List.mem_cons_self)
    simp only [Fits, List.flatMap_cons, List.length_append, List.cons_ne_nil, false_or,
      List.getLast?_cons_cons]
    rw [← Nat.add_assoc]
    constructor
    · intro h
      exact ⟨by omega, .inr (by omega), h⟩
    · exact fun h => h.2.2

/-- **All code points are written** iff there is room for them, the text written before being of any
length. -/
theorem char32To8Loop_all_iff (hcps : ∀ cp ∈ cps, form cp ≠ []) (outsz : Nat) (out : Bytes) :
    char32To8Loop outsz cps out = out ++ cps.flatMap form ↔ Fits out.length cps outsz := by
  induction cps generalizing out with
  | nil => simp [char32To8Loop, Fits]
  | cons cp cps ih =>
    obtain ⟨hcp, hothers⟩ := List.forall_mem_cons.mp hcps
    have hne : ¬ out = out ++ (cp :: cps).flatMap form := by simp [hcp]
    rw [fits_cons hcp hothers, char32To8Loop, writeUtf8_form]
    rcases Nat.lt_or_ge out.length outsz with hj | hj
    · rw [if_pos hj]
      dsimp only
      split
      · next hroom =>
        rw [List.flatMap_cons, ← List.append_assoc, ih hothers, List.length_append]
        exact ⟨fun h => ⟨hj, hroom, h⟩, fun h => h.2.2⟩
      · next hroom =>
        rw [if_pos rfl]
        exact iff_of_false hne fun h => hroom h.2.1
    · rw [if_neg (Nat.not_lt.mpr hj)]
      exact iff_of_false hne fun h => by omega

/-! ## A block of the exact size -/

/-- The forms of code points of 21 bits together are their UTF-8 bytes. -/
theorem flatMap_form (hcps : ∀ cp ∈ cps, cp < 2 ^ 21) : cps.flatMap form = cps.flatMap utf8 :=
  List.flatMap_congr fun cp hcp => form_utf8 (hcps cp hcp)

/-- The forms of the characters of a text are its UTF-8 bytes. -/
theorem flatMap_form_text (text : List Char) :
    (text.map Char.toNat).flatMap form = utf8Text text := by
  rw [flatMap_form (spelled_units text).lt, flatMap_utf8_text]

/-- Every character of a text has a form. -/
theorem form_char (text : List Char) : ∀ cp ∈ text.map Char.toNat, form cp ≠ [] := by
  intro cp hcp
  obtain ⟨c, -, rfl⟩ := List.mem_map.mp hcp
  rw [form_utf8 (char_lt c)]
  exact utf8_ne_nil c.toNat

/-- The room for a text that fits in the block is there unless its last character has a longer form
and would fill the block. -/
theorem fits_text (hroom : (utf8Text text).length ≤ outsz) :
    Fits 0 (text.map Char.toNat) outsz ↔
      (utf8Text text).length < outsz ∨ ∀ c ∈ text.getLast?, c.toNat ≤ 0x7F := by
  rw [Fits, flatMap_form_text, Nat.zero_add, List.map_eq_nil_iff, List.getLast?_map]
  have hlast : (∀ cp ∈ text.getLast?.map Char.toNat, cp ≤ 0x7F) ↔
      ∀ c ∈ text.getLast?, c.toNat ≤ 0x7F := by
    cases text.getLast? with
    | none => simp
    | some c => simp
  rw [hlast]
  constructor
  · rintro (rfl | hlt | ⟨-, hascii⟩)
    · exact .inr (by simp)
    · exact .inl hlt
    · exact .inr hascii
  · rintro (hlt | hascii)
    · exact .inr (.inl hlt)
    · rcases Nat.lt_or_eq_of_le hroom with hlt | heq
      · exact .inr (.inl hlt)
      · exact .inr (.inr ⟨heq, hascii⟩)

/-- **The room that a text needs.** It is written whole into a block that holds it, exactly if a
byte is left over or the last character is in ASCII, which needs no byte more. -/
theorem char32To8_text_iff (hroom : (utf8Text text).length ≤ outsz) :
    char32To8 (text.map Char.toNat) outsz = utf8Text text ↔
      (utf8Text text).length < outsz ∨ ∀ c ∈ text.getLast?, c.toNat ≤ 0x7F := by
  have hall := char32To8Loop_all_iff (form_char text) outsz []
  rw [flatMap_form_text, List.nil_append, List.length_nil, fits_text hroom] at hall
  exact hall

end

/-- **When a block is large enough.** For every text and every block that its UTF-8 form fits in,
both converters write the whole text iff the form has at most `INT_MAX` bytes, and it leaves a byte
of the block or the last character is an ASCII character. Each form of more than one byte asks for
one byte of room more than it stores. -/
theorem exact_room_iff {text : List Char} {outsz : Nat} (hroom : (utf8Text text).length ≤ outsz) :
    (char32To8 (text.map Char.toNat) outsz = utf8Text text ∧
        char16To8 (units text) outsz = some (utf8Text text)) ↔
      (utf8Text text).length ≤ intMax ∧
        ((utf8Text text).length < outsz ∨ ∀ c ∈ text.getLast?, c.toNat ≤ 0x7F) := by
  rw [← char32To8_text_iff hroom]
  constructor
  · rintro ⟨h32, h16⟩
    exact ⟨length_char16To8Loop (Nat.zero_le _) h16, h32⟩
  · rintro ⟨hmax, h32⟩
    have hunits := (length_units_le text).trans hmax
    have hagree := char16To8_units hunits (h32 ▸ hmax)
    rw [h32] at hagree
    exact ⟨h32, hagree⟩

/-- A text that ends with an ASCII character. -/
theorem exact_room_example :
    char32To8 (['é', 'a'].map Char.toNat) 3 = utf8Text ['é', 'a'] ∧
      char16To8 (units ['é', 'a']) 3 = some (utf8Text ['é', 'a']) := by
  have hlast : ∀ c ∈ ['é', 'a'].getLast?, c.toNat ≤ 0x7F := by
    rintro c ⟨⟩
    decide
  have hroom : (utf8Text ['é', 'a']).length ≤ 3 := by decide +kernel
  exact (exact_room_iff hroom).mpr ⟨by decide +kernel, .inr hlast⟩

/-- One character of two bytes and a block of two bytes: nothing is written. -/
theorem exact_room_fails :
    (utf8Text ['é']).length = 2 ∧ char32To8 (['é'].map Char.toNat) 2 = [] ∧
      char16To8 (units ['é']) 2 = some [] ∧
      char32To8 (['é'].map Char.toNat) 2 ≠ utf8Text ['é'] := by
  decide +kernel

/-! ## Bytes read and bytes written -/

/-- What some input is converted to, where nothing of it is left over: whole units, each of a code
point with a form, or the bytes themselves. -/
def Converted (order : ByteOrder) (input out : Bytes) : Prop :=
  match order with
  | .ucs4 => ∃ n, input.length = 4 * n ∧ (∀ cp ∈ words n input, form cp ≠ []) ∧
      out = (words n input).flatMap form
  | .ucs2 => ∃ n cps, input.length = 2 * n ∧ Spelled (halfWords n input) cps ∧
      out = cps.flatMap form
  | _ => out = input

/-- The counts that `C_Conv_to_char8` reports correspond: what is written is what the bytes read are
converted to, and with what the remaining bytes are converted to it is the whole. -/
def CountsMatch (order : ByteOrder) (inbuf : Bytes) (outsz : Nat) : Prop :=
  ∃ out nread, toChar8 order inbuf outsz = some (out, nread) ∧
    Converted order (inbuf.take nread) out ∧
    ∀ out', Converted order (inbuf.drop nread) out' → Converted order inbuf (out ++ out')

/-- All units of the input are converted, and there is room for what they are converted to. In 16
bits the index of the output must be an `int` besides. -/
def AllConverted (order : ByteOrder) (inbuf : Bytes) (outsz : Nat) : Prop :=
  match order with
  | .ucs4 => (∀ cp ∈ words (inbuf.length / 4) inbuf, cp ≤ 0x7FFFFF) ∧
      Fits 0 (words (inbuf.length / 4) inbuf) outsz
  | .ucs2 => ∃ cps, Spelled (halfWords (inbuf.length / 2) inbuf) cps ∧ Fits 0 cps outsz ∧
      (cps.flatMap form).length ≤ intMax
  | _ => True

section
variable {order : ByteOrder} {inbuf input rest out out' : Bytes} {outsz : Nat}
  {us us' cps cps' : List Nat}

/-! ### Words -/

/-- An input of `n + 1` half words starts with two bytes. -/
theorem exists_two {n : Nat} (h : input.length = 2 * (n + 1)) :
    ∃ a b rest, input = a :: b :: rest := by
  obtain ⟨a, s, rfl⟩ := List.exists_cons_of_length_pos (l := input) (by omega)
  obtain ⟨b, rest, rfl⟩ := List.exists_cons_of_length_pos (l := s)
    (by rw [List.length_cons] at h; omega)
  exact ⟨a, b, rest, rfl⟩

/-- An input of `n + 1` words starts with four bytes. So one more word is read from it. -/
theorem exists_four {n : Nat} (h : input.length = 4 * (n + 1)) :
    ∃ a b c d rest, input = a :: b :: c :: d :: rest := by
  have htwo : input.length = 2 * (2 * n + 1 + 1) := by omega
  obtain ⟨a, b, s, rfl⟩ := exists_two htwo
  have hfour : s.length = 2 * (2 * n + 1) := by
    simp only [List.length_cons] at h
    omega
  obtain ⟨c, d, rest, rfl⟩ := exists_two hfour
  exact ⟨a, b, c, d, rest, rfl⟩

/-- The words of an input and of what follows it are read one after the other. -/
theorem words_append {n : Nat} (hlen : input.length = 4 * n) (m : Nat) (s : Bytes) :
    words (n + m) (input ++ s) = words n input ++ words m s := by
  induction n generalizing input with
  | zero =>
    rw [List.length_eq_zero_iff.mp hlen, Nat.zero_add]
    rfl
  | succ n ih =>
    obtain ⟨a, b, c, d, rest, rfl⟩ := exists_four hlen
    have hrest : words (n + m) (rest ++ s) = words n rest ++ words m s :=
      ih (by simp only [List.length_cons] at hlen; omega)
    rw [Nat.add_right_comm]
    exact congrArg (word (a :: b :: c :: d :: rest) :: ·) hrest

/-- So are its half words. -/
theorem halfWords_append {n : Nat} (hlen : input.length = 2 * n) (m : Nat) (s : Bytes) :
    halfWords (n + m) (input ++ s) = halfWords n input ++ halfWords m s := by
  induction n generalizing input with
  | zero =>
    rw [List.length_eq_zero_iff.mp hlen, Nat.zero_add]
    rfl
  | succ n ih =>
    obtain ⟨a, b, rest, rfl⟩ := exists_two hlen
    have hrest : halfWords (n + m) (rest ++ s) = halfWords n rest ++ halfWords m s :=
      ih (by simp only [List.length_cons] at hlen; omega)
    rw [Nat.add_right_comm]
    exact congrArg (halfWord (a :: b :: rest) :: ·) hrest

/-- The words of the input are those of its front. -/
theorem words_take {n : Nat} (h : 4 * n ≤ inbuf.length) (s : Bytes) :
    words n (inbuf ++ s) = words n (inbuf.take (4 * n)) := by
  have hfront := words_append (List.length_take_of_le h) 0 (inbuf.drop (4 * n) ++ s)
  rwa [← List.append_assoc, List.take_append_drop, words, List.append_nil] at hfront

/-- What stands behind an input of `n` half words does not change them. -/
theorem halfWords_take {n : Nat} (h : 2 * n ≤ inbuf.length) (s : Bytes) :
    halfWords n (inbuf ++ s) = halfWords n (inbuf.take (2 * n)) := by
  have hfront := halfWords_append (List.length_take_of_le h) 0 (inbuf.drop (2 * n) ++ s)
  rwa [← List.append_assoc, List.take_append_drop, halfWords, List.append_nil] at hfront

/-! ### The counts -/

/-- Inputs converted one after the other are converted to their outputs one after the other. By the
order: words and half words are split where the inputs meet; in the other orders the output is the
input. -/
theorem Converted.append (h : Converted order input out) (h' : Converted order rest out') :
    Converted order (input ++ rest) (out ++ out') := by
  cases order with
  | ucs4 =>
    obtain ⟨n, hlen, hforms, rfl⟩ := h
    obtain ⟨m, hlen', hforms', rfl⟩ := h'
    refine ⟨n + m, by rw [List.length_append]; omega, ?_, ?_⟩
    · rw [words_append hlen]
      exact List.forall_mem_append.mpr ⟨hforms, hforms'⟩
    · rw [words_append hlen, List.flatMap_append]
  | ucs2 =>
    obtain ⟨n, cps, hlen, hspelled, rfl⟩ := h
    obtain ⟨m, cps', hlen', hspelled', rfl⟩ := h'
    refine ⟨n + m, cps ++ cps', by rw [List.length_append]; omega, ?_, ?_⟩
    · rw [halfWords_append hlen]
      exact hspelled.append hspelled'
    · rw [List.flatMap_append]
  | byte | ucs2Swap | ucs4Swap4321 | ucs4Swap3412 | ucs4Swap2143 | unknown =>
    obtain rfl : out = input := h
    obtain rfl : out' = rest := h'
    rfl

/-- The second half of the property follows from the first: what is converted in two parts is
converted as a whole. -/
theorem countsMatch_iff {nread : Nat} (hcall : toChar8 order inbuf outsz = some (out, nread)) :
    CountsMatch order inbuf outsz ↔ Converted order (inbuf.take nread) out := by
  constructor
  · rintro ⟨out', nread', hcall', hconverted, -⟩
    rw [hcall] at hcall'
    cases hcall'
    exact hconverted
  · intro h
    refine ⟨out, nread, hcall, h, fun out' h' => ?_⟩
    have hall := h.append h'
    rwa [List.take_append_drop] at hall

/-- Bytes are copied one by one, so their counts always correspond. -/
theorem countsMatch_byte (inbuf : Bytes) (outsz : Nat) : CountsMatch .byte inbuf outsz := by
  have hcall : toChar8 .byte inbuf outsz =
      some (inbuf.take (min inbuf.length outsz), min inbuf.length outsz) := by
    show some ((inbuf ++ [0]).take (min inbuf.length outsz), min inbuf.length outsz) = _
    rw [List.take_append_of_le_length (Nat.min_le_left _ _)]
  rw [countsMatch_iff hcall]
  rfl

/-- For words the counts correspond exactly where all of them are converted: the number read is that
of the whole input, whatever was written. -/
theorem countsMatch_ucs4 (inbuf : Bytes) (outsz : Nat) :
    CountsMatch .ucs4 inbuf outsz ↔ AllConverted .ucs4 inbuf outsz := by
  have hle : 4 * (inbuf.length / 4) ≤ inbuf.length := Nat.mul_div_le _ _
  have hcall : toChar8 .ucs4 inbuf outsz =
      some (char32To8 (words (inbuf.length / 4) (inbuf ++ [0])) outsz, inbuf.length / 4 * 4) := rfl
  have hwords : words (inbuf.length / 4) inbuf =
      words (inbuf.length / 4) (inbuf.take (4 * (inbuf.length / 4))) := by
    simpa using words_take hle []
  rw [words_take hle, Nat.mul_comm (inbuf.length / 4)] at hcall
  rw [countsMatch_iff hcall, AllConverted, hwords]
  have hlen := List.length_take_of_le hle
  generalize inbuf.take (4 * (inbuf.length / 4)) = input at hlen ⊢
  generalize inbuf.length / 4 = n at hlen ⊢
  constructor
  · rintro ⟨m, hm, hforms, hout⟩
    obtain rfl : m = n := by omega
    refine ⟨fun cp hcp => form_ne_nil_iff.mp (hforms cp hcp), ?_⟩
    exact (char32To8Loop_all_iff hforms outsz []).mp hout
  · rintro ⟨hforms, hfits⟩
    have hforms' : ∀ cp ∈ words n input, form cp ≠ [] :=
      fun cp hcp => form_ne_nil_iff.mpr (hforms cp hcp)
    exact ⟨n, hlen, hforms', (char32To8Loop_all_iff hforms' outsz []).mpr hfits⟩

/-- What units spell has a form: it is below 2²¹. -/
theorem Spelled.form_ne_nil (h : Spelled us cps) : ∀ cp ∈ cps, form cp ≠ [] := by
  intro cp hcp
  rw [form_utf8 (h.lt cp hcp)]
  exact utf8_ne_nil cp

/-- Units never outnumber the bytes of what they spell. -/
theorem Spelled.length_le_form (h : Spelled us cps) : us.length ≤ (cps.flatMap form).length := by
  rw [flatMap_form h.lt]
  exact h.length_le

/-- For half words too they correspond exactly where all units are converted. The number read counts
the units of the whole input, surrogates in pairs or not. The loop over half words is that over the
characters they spell (`char16To8In_spelled`), which writes all of them exactly if there is room for
each. -/
theorem countsMatch_ucs2 (inbuf : Bytes) (outsz : Nat) :
    CountsMatch .ucs2 inbuf outsz ↔ AllConverted .ucs2 inbuf outsz := by
  have hle : 2 * (inbuf.length / 2) ≤ inbuf.length := Nat.mul_div_le _ _
  have hcall : toChar8 .ucs2 inbuf outsz =
      (char16To8 (halfWords (inbuf.length / 2) (inbuf ++ [0])) outsz).map
        fun out => (out, inbuf.length / 2 * 2) := rfl
  have hwords : halfWords (inbuf.length / 2) inbuf =
      halfWords (inbuf.length / 2) (inbuf.take (2 * (inbuf.length / 2))) := by
    simpa using halfWords_take hle []
  rw [halfWords_take hle, Nat.mul_comm (inbuf.length / 2)] at hcall
  rw [AllConverted, hwords]
  constructor
  · rintro ⟨out, nread, hout, hconverted, -⟩
    rw [hcall] at hout
    obtain ⟨text, htext, hpair⟩ := Option.map_eq_some_iff.mp hout
    cases hpair
    obtain ⟨m, cps, hm, hspelled, hform⟩ := hconverted
    rw [List.length_take_of_le hle] at hm
    obtain rfl : m = inbuf.length / 2 := by omega
    subst hform
    have hmax := length_char16To8Loop (Nat.zero_le _) htext
    refine ⟨cps, hspelled, (char32To8Loop_all_iff hspelled.form_ne_nil outsz []).mp ?_, hmax⟩
    rw [char16To8_eq] at htext
    rcases char16To8In_spelled hspelled [] outsz with hsome | ⟨hnone, -⟩
    · rw [hsome] at htext
      exact Option.some.inj htext
    · rw [hnone] at htext
      cases htext
  · rintro ⟨cps, hspelled, hfits, hmax⟩
    have hwritten : char32To8 cps outsz = cps.flatMap form :=
      (char32To8Loop_all_iff hspelled.form_ne_nil outsz []).mpr hfits
    have hunits := hspelled.length_le_form
    have htext : char16To8 (halfWords (inbuf.length / 2)
        (inbuf.take (2 * (inbuf.length / 2)))) outsz = some (cps.flatMap form) := by
      rw [char16To8_eq]
      rcases char16To8In_spelled hspelled [] outsz with hsome | ⟨-, hover⟩
      · rw [hsome, hwritten]
      · rw [hwritten] at hover
        omega
    rw [htext] at hcall
    rw [countsMatch_iff hcall]
    exact ⟨_, cps, List.length_take_of_le hle, hspelled, rfl⟩

end

/-- **When the counts correspond.** For each of the three orders that flip no bytes, every input and
every `outsz`, what `C_Conv_to_char8` writes is what the bytes it reports as read are converted to
iff it converts all units of the input. The number of bytes read is computed before the loop, which
may end early. -/
theorem counts_match_iff {order : ByteOrder}
    (horder : order = .byte ∨ order = .ucs2 ∨ order = .ucs4)
    (inbuf : Bytes) (outsz : Nat) :
    CountsMatch order inbuf outsz ↔ AllConverted order inbuf outsz := by
  rcases horder with rfl | rfl | rfl
  · exact iff_of_true (countsMatch_byte inbuf outsz) trivial
  · exact countsMatch_ucs2 inbuf outsz
  · exact countsMatch_ucs4 inbuf outsz

/-- Native UTF-32 text with a byte of room left. -/
theorem counts_match_example : CountsMatch .ucs4 [0x41, 0, 0, 0] 2 := by
  have hall : AllConverted .ucs4 [0x41, 0, 0, 0] 2 := by
    refine ⟨by decide +kernel, .inr (.inl ?_)⟩
    decide +kernel
  exact (counts_match_iff (.inr (.inr rfl)) _ 2).mpr hall

/-- Two characters and room for one: both are reported as read. Only the first is converted. -/
theorem counts_differ :
    toChar8 .ucs4 [0x41, 0, 0, 0, 0x42, 0, 0, 0] 1 = some ([0x41], 8) ∧
      ¬ CountsMatch .ucs4 [0x41, 0, 0, 0, 0x42, 0, 0, 0] 1 := by
  refine ⟨by decide +kernel, fun h => ?_⟩
  obtain ⟨-, hfits⟩ := (countsMatch_ucs4 _ _).mp h
  have hlen : ((words 2 [0x41, 0, 0, 0, 0x42, 0, 0, 0]).flatMap form).length = 2 := by
    decide +kernel
  rcases hfits with hnil | hlt | ⟨heq, -⟩
  · cases hnil
  · have : 0 + 2 < 1 := hlen ▸ hlt
    omega
  · have : 0 + 2 = 1 := hlen ▸ heq
    omega

end Eltn
