import Eltn.Convert.Flips
import Eltn.Convert.Units

/-!
# Decoding marked text

Text with a byte order mark in front, in each of the six multi-byte orders, is detected by
`C_Conv_byte_order` and converted by `C_Conv_to_char8`. `decode_encode_iff` says for which orders
and texts this gives the UTF-8 form of the text: two marks are not recognised, and the two flips
move each group of bytes by one byte too far (`flipLoop_chunks`), which only some texts survive.
-/

namespace Eltn

open Unicode

/-- The bytes of a character in an order. The digits of the swapped orders count the bytes of the
native order, the lowest byte first. -/
def encodeChar (order : ByteOrder) (c : Char) : Bytes :=
  let b (k : Nat) : UInt8 := UInt8.ofNat (c.toNat / 0x100 ^ k)
  match order with
  | .ucs2 => (utf16 c.toNat).flatMap fun u => [UInt8.ofNat u, UInt8.ofNat (u / 0x100)]
  | .ucs2Swap => (utf16 c.toNat).flatMap fun u => [UInt8.ofNat (u / 0x100), UInt8.ofNat u]
  | .ucs4 => [b 0, b 1, b 2, b 3]
  | .ucs4Swap4321 => [b 3, b 2, b 1, b 0]
  | .ucs4Swap3412 => [b 2, b 3, b 0, b 1]
  | .ucs4Swap2143 => [b 1, b 0, b 3, b 2]
  | .byte | .unknown => String.utf8EncodeChar c

/-- The bytes of a text in an order. -/
def encode (order : ByteOrder) (text : List Char) : Bytes := text.flatMap (encodeChar order)

/-- The byte order mark. -/
def byteOrderMark : Char := '\uFEFF'

/-- Detecting the byte order and converting what follows the mark: the bytes written. -/
def decode (bytes : Bytes) (outsz : Nat) : Option Bytes :=
  let found := byteOrder bytes
  (toChar8 found.1 (bytes.drop found.2) outsz).map Prod.fst

/-! ## The orders -/

section
variable {c : Char} {text : List Char} {outsz : Nat}

/-- UTF-32 in the native order is left as it is. -/
theorem toNativeOrder_ucs4 (insz : Nat) (buf : Bytes) :
    toNativeOrder .ucs4 insz buf = some (buf, .ucs4) := rfl

/-- So is UTF-16 in the native order. -/
theorem toNativeOrder_ucs2 (insz : Nat) (buf : Bytes) :
    toNativeOrder .ucs2 insz buf = some (buf, .ucs2) := rfl

/-- A byte of a character, the lowest first. -/
def byteOf (k : Nat) (c : Char) : UInt8 := UInt8.ofNat (c.toNat / 0x100 ^ k)

/-- A byte of a character as a digit to the base 256. -/
theorem toNat_byteOf (k : Nat) (c : Char) : (byteOf k c).toNat = c.toNat / 0x100 ^ k % 0x100 :=
  UInt8.toNat_ofNat'

/-- The highest byte is zero: characters lie below 2²¹. -/
theorem byteOf_three (c : Char) : byteOf 3 c = 0 := by
  have := char_lt c
  rw [byteOf, Nat.div_eq_of_lt (by omega)]
  rfl

/-- Native UTF-32 text is read as its characters, whatever stands behind it. -/
theorem words_text (text : List Char) (s : Bytes) :
    words text.length (encode .ucs4 text ++ s) = text.map Char.toNat := by
  induction text with
  | nil => rfl
  | cons c text ih =>
    have hword : word (encode .ucs4 (c :: text) ++ s) = c.toNat := by
      show word (byteOf 0 c :: byteOf 1 c :: byteOf 2 c :: byteOf 3 c :: _) = _
      have := char_lt c
      simp only [word_cons, toNat_byteOf]
      omega
    rw [List.length_cons, words, hword, List.map_cons, ← ih]
    rfl

/-- What the two flips make of text in the order 3412, behind its first byte: each group has one
byte of the next character. -/
def mixed : List Char → Bytes
  | [] => []
  | c :: text =>
    byteOf 1 c :: nextByte (byteOf 2) text :: byteOf 3 c :: byteOf 0 c :: mixed text

/-- Its words: a character with the lowest byte of the one before, and the third of the next. `x` is
that lowest byte at the front. -/
def shifted (x : Nat) : List Char → List Nat
  | [] => []
  | c :: text =>
    (x + c.toNat / 0x100 % 0x100 * 0x100 + (nextByte (byteOf 2) text).toNat * 0x10000) ::
      shifted (c.toNat % 0x100) text

/-- Behind a byte `x`, the bytes that the two flips leave of a text are words again, one for each
character. Each takes its lowest byte from what stands before it. -/
theorem words_mixed (x : UInt8) (text : List Char) :
    words text.length (x :: mixed text) = shifted x.toNat text := by
  induction text generalizing x with
  | nil => rfl
  | cons c text ih =>
    have hlow : (byteOf 0 c).toNat = c.toNat % 0x100 := by
      rw [toNat_byteOf, Nat.pow_zero, Nat.div_one]
    rw [List.length_cons, words, mixed, shifted, word_cons, byteOf_three, toNat_byteOf, Nat.pow_one,
      ← hlow, ← ih]
    simp

/-- The byte that a word takes from the next character is its third, which is at most 16. -/
theorem nextByte_lt (text : List Char) : (nextByte (byteOf 2) text).toNat ≤ 0x10 := by
  cases text with
  | nil => decide
  | cons c text =>
    have hvalid := char_valid c
    show (byteOf 2 c).toNat ≤ _
    rw [toNat_byteOf]
    omega

/-- So the words that come out are below 2²¹, as characters are, though they are not those of the
text. -/
theorem shifted_lt {x : Nat} (hx : x < 0x100) (text : List Char) :
    ∀ cp ∈ shifted x text, cp < 2 ^ 21 := by
  induction text generalizing x with
  | nil => nofun
  | cons c text ih =>
    have := nextByte_lt text
    refine List.forall_mem_cons.mpr ⟨by omega, ih (Nat.mod_lt _ (Nat.succ_pos 255))⟩

/-- There are as many of them as characters. -/
theorem length_shifted (x : Nat) (text : List Char) : (shifted x text).length = text.length := by
  induction text generalizing x with
  | nil => rfl
  | cons c text ih => rw [shifted, List.length_cons, ih, List.length_cons]

/-- **The texts that the flips leave as they are**: all characters have the same lowest byte, the
one in front of them, and none is above the first plane. -/
theorem shifted_eq_iff {x : Nat} (hx : x < 0x100) (text : List Char) :
    shifted x text = text.map Char.toNat ↔ ∀ c ∈ text, c.toNat % 0x100 = x ∧ c.toNat < 0x10000 := by
  induction text generalizing x with
  | nil => simp [shifted]
  | cons c text ih =>
    rw [shifted, List.map_cons, List.cons.injEq, ih (Nat.mod_lt _ (Nat.succ_pos 255)),
      List.forall_mem_cons]
    have hnext (h : ∀ d ∈ text, d.toNat % 0x100 = c.toNat % 0x100 ∧ d.toNat < 0x10000) :
        (nextByte (byteOf 2) text).toNat = 0 := by
      cases text with
      | nil => rfl
      | cons d text =>
        have hd := (h d List.mem_cons_self).2
        show (byteOf 2 d).toNat = 0
        rw [toNat_byteOf]
        omega
    constructor
    · rintro ⟨hword, hothers⟩
      rw [hnext hothers] at hword
      have hlow : c.toNat % 0x100 = x := by omega
      exact ⟨⟨hlow, by omega⟩, hlow ▸ hothers⟩
    · rintro ⟨⟨rfl, hlow⟩, hothers⟩
      rw [hnext hothers]
      exact ⟨by omega, hothers⟩

/-- The groups of two bytes that `flip_bytes_2` finds behind the first byte then, after
`flip_bytes_4` has gone over them. -/
def halves : List Char → List Bytes
  | [] => []
  | c :: text =>
    [nextByte (byteOf 2) text, byteOf 1 c] :: [byteOf 0 c, byteOf 3 c] :: halves text

/-- There are two groups of two bytes for each character. -/
theorem length_halves (text : List Char) : (halves text).length = 2 * text.length := by
  induction text with
  | nil => rfl
  | cons c text ih => rw [halves, List.length_cons, List.length_cons, ih, List.length_cons]; omega

/-- Each of them has two bytes. -/
theorem halves_two (text : List Char) : ∀ chunk ∈ halves text, chunk.length = 2 := by
  induction text with
  | nil => nofun
  | cons c text ih =>
    exact List.forall_mem_cons.mpr ⟨rfl, List.forall_mem_cons.mpr ⟨rfl, ih⟩⟩

/-- Together they are the bytes that the flip of four bytes has left. -/
theorem flatten_halves (text : List Char) : (halves text).flatten =
    ((carried (byteOf 2) (byteOf 3) (byteOf 0) (byteOf 1) text).map List.reverse).flatten := by
  induction text with
  | nil => rfl
  | cons c text ih =>
    rw [halves, carried, List.map_cons, List.flatten_cons, List.flatten_cons, List.flatten_cons, ih]
    rfl

/-- With each of them reversed they are what the second flip leaves. -/
theorem flatten_reverse_halves (text : List Char) :
    ((halves text).map List.reverse).flatten = mixed text := by
  induction text with
  | nil => rfl
  | cons c text ih =>
    rw [halves, List.map_cons, List.map_cons, List.flatten_cons, List.flatten_cons, ih]
    rfl

/-- **The flips of the order 3412**, one after the other: the third byte of the first character, and
then the mixed text. -/
theorem toNativeOrder_3412 (c : Char) (text : List Char) :
    toNativeOrder .ucs4Swap3412 (4 * (c :: text).length)
        (encode .ucs4Swap3412 (c :: text) ++ [0]) =
      if 4 * (c :: text).length ≤ intMax then some (byteOf 2 c :: mixed (c :: text), .ucs4)
      else none := by
  have hfour : flipBytes4 (4 * (c :: text).length) (encode .ucs4Swap3412 (c :: text) ++ [0]) =
      if 4 * (c :: text).length ≤ intMax then some (byteOf 2 c :: (halves (c :: text)).flatten)
      else none := by
    rw [flatten_halves]
    exact flipBytes4_text c text
  rw [toNativeOrder, hfour]
  split
  · next hmax =>
    have htwo : flipBytes2 (4 * (c :: text).length) (byteOf 2 c :: (halves (c :: text)).flatten) =
        some (byteOf 2 c :: mixed (c :: text)) := by
      have hlen : 4 * (c :: text).length =
          ([] : Bytes).length + 2 * (halves (c :: text)).length := by
        rw [length_halves, List.length_nil]
        omega
      have hfuel : (halves (c :: text)).length ≤ 4 * (c :: text).length := by
        rw [length_halves]
        omega
      rw [← flatten_reverse_halves]
      exact flipLoop_chunks reverses_two (Nat.succ_pos 1) (halves_two _) hlen hfuel hmax
    rw [Option.bind_some, htwo]
    rfl
  · rfl

/-- **The flip of the order 4321.** The first word has two bytes of the first character in its upper
half, so that it is too great for a code point. -/
theorem toNativeOrder_4321 (c : Char) (text : List Char) :
    toNativeOrder .ucs4Swap4321 (4 * (c :: text).length)
        (encode .ucs4Swap4321 (c :: text) ++ [0]) = none ∨
      ∃ s, toNativeOrder .ucs4Swap4321 (4 * (c :: text).length)
        (encode .ucs4Swap4321 (c :: text) ++ [0]) =
          some (0 :: 0 :: byteOf 0 c :: byteOf 1 c :: s, .ucs4) := by
  have hfour : flipBytes4 (4 * (c :: text).length) (encode .ucs4Swap4321 (c :: text) ++ [0]) = _ :=
    flipBytes4_text (p := byteOf 3) (q := byteOf 2) (r := byteOf 1) (s := byteOf 0) c text
  have hnext : nextByte (byteOf 3) text = 0 := by
    cases text with
    | nil => rfl
    | cons d text => exact byteOf_three d
  rw [toNativeOrder, hfour]
  split
  · refine .inr ⟨byteOf 2 c :: ((carried (byteOf 3) (byteOf 2) (byteOf 1) (byteOf 0)
      text).map List.reverse).flatten, ?_⟩
    rw [carried, hnext, byteOf_three]
    rfl
  · exact .inl rfl

/-! ## Detection -/

/-- The detection by its words: where the first byte is not that of the UTF-8 mark, the word and the
half word at the front decide. -/
theorem byteOrder_words {a b c d : UInt8} {s : Bytes} {w h : Nat} (ha : a ≠ 0xEF)
    (hhalf : a.toNat + b.toNat * 0x100 = h)
    (hword : h + (c.toNat + d.toNat * 0x100) * 0x10000 = w) :
    byteOrder (a :: b :: c :: d :: s) =
      if w = 0x0000FEFF then (.ucs4, 4)
      else if w = 0xFFFE0000 then (.ucs4Swap4321, 4)
      else if w = 0xFEFF0000 then (.ucs4Swap3412, 4)
      else if w = 0x0000FFEF then (.ucs4Swap2143, 4)
      else if h = 0xFEFF then (.ucs2, 2)
      else if h = 0xFFEF then (.ucs2Swap, 2)
      else (.unknown, 0) := by
  have hlen : (a :: b :: c :: d :: s).length ≥ 4 := by simp
  rw [byteOrder, if_neg (fun h => ha h.2.1), if_pos hlen, word_cons, halfWord_cons, hhalf, hword]

/-- The byte order mark of UTF-32 in the native order. -/
theorem byteOrder_ucs4 (s : Bytes) : byteOrder (0xFF :: 0xFE :: 0 :: 0 :: s) = (.ucs4, 4) := by
  simp [byteOrder, word, halfWord]

/-- The byte order mark of UTF-32 in the opposite order. -/
theorem byteOrder_4321 (s : Bytes) :
    byteOrder (0 :: 0 :: 0xFE :: 0xFF :: s) = (.ucs4Swap4321, 4) := by
  simp [byteOrder, word, halfWord]

/-- The byte order mark of the order 3412. -/
theorem byteOrder_3412 (s : Bytes) :
    byteOrder (0 :: 0 :: 0xFF :: 0xFE :: s) = (.ucs4Swap3412, 4) := by
  simp [byteOrder, word, halfWord]

/-- The byte order mark of UTF-16 in the native order. Two zero bytes behind it would make it that
of UTF-32. -/
theorem byteOrder_ucs2 {a b : UInt8} (s : Bytes) (hab : a.toNat + b.toNat * 0x100 ≠ 0) :
    byteOrder (0xFF :: 0xFE :: a :: b :: s) = (.ucs2, 2) := by
  rw [byteOrder_words (h := 0xFEFF) (by decide) (by decide) rfl]
  generalize a.toNat + b.toNat * 0x100 = n at hab
  rw [if_neg (by omega), if_neg (by omega), if_neg (by omega), if_neg (by omega), if_pos rfl]

/-- The marks of the two orders that swap the bytes of half words are not recognised. -/
theorem byteOrder_swapped (a b : UInt8) (s : Bytes) :
    byteOrder (0xFE :: 0xFF :: a :: b :: s) = (.unknown, 0) := by
  rw [byteOrder_words (h := 0xFFFE) (by decide) (by decide) rfl]
  generalize a.toNat + b.toNat * 0x100 = n
  rw [if_neg (by omega), if_neg (by omega), if_neg (by omega), if_neg (by omega),
    if_neg (by omega), if_neg (by omega)]

/-! ## Decoding -/

/-- What is copied verbatim from the mark on is no UTF-8 text, whatever follows: no form starts with
`FE` or `FF`. -/
theorem decode_swapped (a b : UInt8) (s : Bytes) (hout : 0 < outsz) :
    decode (0xFE :: 0xFF :: a :: b :: s) outsz ≠ some (utf8Text (c :: text)) := by
  rw [decode, byteOrder_swapped]
  intro h
  have hsome : (0xFE :: 0xFF :: a :: b :: s ++ [0]).take
      (min (0xFE :: 0xFF :: a :: b :: s).length outsz) = utf8Text (c :: text) :=
    Option.some.inj h
  obtain ⟨n, hn⟩ : ∃ n, min (0xFE :: 0xFF :: a :: b :: s).length outsz = n + 1 :=
    ⟨min (0xFE :: 0xFF :: a :: b :: s).length outsz - 1, by simp only [List.length_cons]; omega⟩
  obtain ⟨x, xs, hx⟩ := List.exists_cons_of_ne_nil (utf8_ne_nil c.toNat)
  have hlow := utf8_head_lt c.toNat x (by rw [hx]; rfl)
  rw [hn, utf8Text_cons, hx] at hsome
  have hhead : (0xFE : UInt8) = x := (List.cons.inj hsome).1
  rw [← hhead] at hlow
  exact absurd hlow (by decide)

/-- In an order of four bytes a text takes four bytes for each character. -/
theorem length_encode_four (order : ByteOrder) (horder : ∀ c, (encodeChar order c).length = 4)
    (text : List Char) : (encode order text).length = 4 * text.length := by
  induction text with
  | nil => rfl
  | cons c text ih =>
    rw [encode, List.flatMap_cons, List.length_append, horder, ← encode, ih, List.length_cons]
    omega

/-- Native UTF-32 text is decoded, in a block that is longer than its UTF-8 form. -/
theorem decode_ucs4 (hroom : (utf8Text text).length < outsz) :
    decode (encode .ucs4 (byteOrderMark :: text)) outsz = some (utf8Text text) := by
  have hmark : encode .ucs4 (byteOrderMark :: text) =
      0xFF :: 0xFE :: 0 :: 0 :: encode .ucs4 text := rfl
  have hlen := length_encode_four .ucs4 (fun _ => rfl) text
  have hcount : (encode .ucs4 text).length / 4 = text.length := by omega
  have hout : char32To8Loop outsz (text.map Char.toNat) [] = [] ++ utf8Text text :=
    char32To8Loop_text (by simpa using hroom)
  rw [decode, hmark, byteOrder_ucs4]
  show (toChar8 .ucs4 (encode .ucs4 text) outsz).map Prod.fst = _
  rw [toChar8, toNativeOrder_ucs4, Option.bind_some]
  dsimp only
  rw [if_pos rfl, hcount, words_text, char32To8, hout]
  rfl

/-- The units of a character are 16 bits wide. -/
theorem utf16_lt (c : Char) : ∀ u ∈ utf16 c.toNat, u < 0x10000 := by
  have hvalid := char_valid c
  intro u hu
  unfold utf16 at hu
  split at hu
  · simp only [List.mem_singleton] at hu
    omega
  · simp only [List.mem_cons, List.not_mem_nil, or_false] at hu
    omega

/-- The bytes of a unit. -/
def unitBytes (u : Nat) : Bytes := [UInt8.ofNat u, UInt8.ofNat (u / 0x100)]

/-- A text in UTF-16 is written unit by unit, the lower byte first. -/
theorem encode_ucs2 (text : List Char) : encode .ucs2 text = (units text).flatMap unitBytes := by
  rw [units, List.flatMap_assoc]
  rfl

/-- Native UTF-16 text is read as its units, whatever stands behind it. -/
theorem halfWords_units {us : List Nat} (hus : ∀ u ∈ us, u < 0x10000) (s : Bytes) :
    halfWords us.length (us.flatMap unitBytes ++ s) = us := by
  induction us with
  | nil => rfl
  | cons u us ih =>
    obtain ⟨hu, hus⟩ := List.forall_mem_cons.mp hus
    have hword : halfWord ((u :: us).flatMap unitBytes ++ s) = u := by
      show halfWord (UInt8.ofNat u :: UInt8.ofNat (u / 0x100) :: _) = u
      rw [halfWord_cons, UInt8.toNat_ofNat', UInt8.toNat_ofNat']
      omega
    rw [List.length_cons, halfWords, hword]
    exact congrArg (u :: ·) (ih hus)

/-- Each unit takes two bytes. -/
theorem length_unitBytes (us : List Nat) : (us.flatMap unitBytes).length = 2 * us.length := by
  induction us with
  | nil => rfl
  | cons u us ih =>
    rw [List.flatMap_cons, List.length_append, ih, List.length_cons, unitBytes]
    simp only [List.length_cons, List.length_nil]
    omega

/-- Native UTF-16 text is decoded as long as the indices are `int` values, the block being longer
than the text in UTF-8. The byte order mark tells the order, since the first unit is not zero, and
the words read back are the units that were encoded. -/
theorem decode_ucs2 (hc : c.toNat ≠ 0) (hroom : (utf8Text (c :: text)).length < outsz) :
    decode (encode .ucs2 (byteOrderMark :: c :: text)) outsz = some (utf8Text (c :: text)) ↔
      (utf8Text (c :: text)).length ≤ intMax := by
  have hlt : ∀ u ∈ units (c :: text), u < 0x10000 := by
    intro u hu
    obtain ⟨d, -, hd⟩ := List.mem_flatMap.mp hu
    exact utf16_lt d u hd
  obtain ⟨u, us, hunits, hu⟩ : ∃ u us, units (c :: text) = u :: us ∧ u ≠ 0 := by
    rw [units_cons, utf16]
    split
    · exact ⟨c.toNat, _, rfl, hc⟩
    · exact ⟨_, _, rfl, by omega⟩
  have hmark : encode .ucs2 (byteOrderMark :: c :: text) =
      0xFF :: 0xFE :: encode .ucs2 (c :: text) := rfl
  have hfirst : encode .ucs2 (c :: text) =
      UInt8.ofNat u :: UInt8.ofNat (u / 0x100) :: us.flatMap unitBytes := by
    rw [encode_ucs2, hunits]
    rfl
  have hnonzero : (UInt8.ofNat u).toNat + (UInt8.ofNat (u / 0x100)).toNat * 0x100 ≠ 0 := by
    have := hlt u (by rw [hunits]; exact List.mem_cons_self)
    rw [UInt8.toNat_ofNat', UInt8.toNat_ofNat']
    omega
  have hdecode : decode (encode .ucs2 (byteOrderMark :: c :: text)) outsz =
      char16To8 (units (c :: text)) outsz := by
    have hcount : (encode .ucs2 (c :: text)).length / 2 = (units (c :: text)).length := by
      rw [encode_ucs2, length_unitBytes]
      omega
    have horder := byteOrder_ucs2 (us.flatMap unitBytes) hnonzero
    rw [← hfirst] at horder
    rw [decode, hmark, horder]
    show (toChar8 .ucs2 (encode .ucs2 (c :: text)) outsz).map Prod.fst = _
    rw [toChar8, toNativeOrder_ucs2, Option.bind_some]
    dsimp only
    rw [if_neg (by decide), if_pos rfl, hcount, encode_ucs2, halfWords_units hlt]
    cases char16To8 (units (c :: text)) outsz <;> rfl
  rw [hdecode]
  constructor
  · exact fun h => length_char16To8Loop (Nat.zero_le _) h
  · intro hmax
    have hwritten : char32To8 ((c :: text).map Char.toNat) outsz = utf8Text (c :: text) :=
      char32To8Loop_text (by simpa using hroom)
    have hunits := (length_units_le (c :: text)).trans hmax
    rw [char16To8_units hunits (hwritten ▸ hmax), hwritten]

/-- Text in the order 4321 is not decoded, in whatever room: the first word is no code point, or
another one, since it holds the low half of the character sixteen bits too far up. -/
theorem decode_4321 (hc : c.toNat ≠ 0) :
    decode (encode .ucs4Swap4321 (byteOrderMark :: c :: text)) outsz ≠
      some (utf8Text (c :: text)) := by
  have hmark : encode .ucs4Swap4321 (byteOrderMark :: c :: text) =
      0 :: 0 :: 0xFE :: 0xFF :: encode .ucs4Swap4321 (c :: text) := rfl
  have hlen := length_encode_four .ucs4Swap4321 (fun _ => rfl) (c :: text)
  rw [decode, hmark, byteOrder_4321]
  show (toChar8 .ucs4Swap4321 (encode .ucs4Swap4321 (c :: text)) outsz).map Prod.fst ≠ _
  rw [toChar8, hlen]
  rcases toNativeOrder_4321 c text with hnone | ⟨s, hsome⟩
  · rw [hnone]
    nofun
  rw [hsome, Option.bind_some]
  dsimp only
  rw [if_pos rfl, Nat.mul_div_cancel_left _ (Nat.succ_pos 3), List.length_cons, words, word_cons]
  intro h
  have hout := Option.some.inj h
  have hword : (0 : UInt8).toNat + (0 : UInt8).toNat * 0x100 +
      ((byteOf 0 c).toNat + (byteOf 1 c).toNat * 0x100) * 0x10000 =
      (c.toNat % 0x100 + c.toNat / 0x100 % 0x100 * 0x100) * 0x10000 := by
    rw [toNat_byteOf, toNat_byteOf, Nat.pow_zero, Nat.div_one, Nat.pow_one]
    exact Nat.zero_add _
  rw [hword] at hout
  by_cases hcp : (c.toNat % 0x100 + c.toNat / 0x100 % 0x100 * 0x100) * 0x10000 < 2 ^ 21
  · have hloop : char32To8Loop outsz (_ :: _) [] = [] ++ utf8Text (c :: text) := hout
    have heq := (char32To8Loop_head hcp hloop).1
    omega
  · exact char32To8_large (by omega) hout

/-- Text in the order 3412 is decoded if the flips leave it as it is, which asks for characters
whose lowest byte is zero, and only then. What the flips leave is each character with the lowest
byte of the one before and the third of the next (`shifted`), which are the text's own where these
bytes are all zero. -/
theorem decode_3412 (hroom : (utf8Text (c :: text)).length < outsz) :
    decode (encode .ucs4Swap3412 (byteOrderMark :: c :: text)) outsz =
        some (utf8Text (c :: text)) ↔
      4 * (c :: text).length ≤ intMax ∧
        ∀ d ∈ c :: text, d.toNat % 0x100 = 0 ∧ d.toNat < 0x10000 := by
  have hmark : encode .ucs4Swap3412 (byteOrderMark :: c :: text) =
      0 :: 0 :: 0xFF :: 0xFE :: encode .ucs4Swap3412 (c :: text) := rfl
  have hlen := length_encode_four .ucs4Swap3412 (fun _ => rfl) (c :: text)
  have hthird : (byteOf 2 c).toNat = c.toNat / 0x10000 := by
    have := char_lt c
    rw [toNat_byteOf]
    omega
  have hbyte : c.toNat / 0x10000 < 0x100 := by
    have := char_lt c
    omega
  rw [decode, hmark, byteOrder_3412]
  show (toChar8 .ucs4Swap3412 (encode .ucs4Swap3412 (c :: text)) outsz).map Prod.fst = _ ↔ _
  rw [toChar8, hlen, toNativeOrder_3412]
  split
  · next hmax =>
    rw [Option.bind_some]
    dsimp only
    rw [if_pos rfl, Nat.mul_div_cancel_left _ (Nat.succ_pos 3), words_mixed, hthird]
    have hfix := shifted_eq_iff hbyte (c :: text)
    have hout : char32To8 (shifted (c.toNat / 0x10000) (c :: text)) outsz = utf8Text (c :: text) ↔
        shifted (c.toNat / 0x10000) (c :: text) = (c :: text).map Char.toNat := by
      constructor
      · intro h
        have hloop : char32To8Loop outsz (shifted (c.toNat / 0x10000) (c :: text)) [] =
            [] ++ utf8Text (c :: text) := h
        exact char32To8Loop_inj (shifted_lt hbyte _) (length_shifted _ _) hloop
      · intro h
        have hloop : char32To8Loop outsz ((c :: text).map Char.toNat) [] =
            [] ++ utf8Text (c :: text) := char32To8Loop_text (by simpa using hroom)
        rw [h]
        exact hloop
    rw [Option.map_some, Option.some.injEq, hout, hfix, and_iff_right hmax]
    constructor
    · intro h d hd
      have hfirst := (h c List.mem_cons_self).2
      have hlast := h d hd
      omega
    · intro h d hd
      have hfirst := (h c List.mem_cons_self).2
      have hlast := h d hd
      omega
  · next hmax => exact iff_of_false nofun (fun h => hmax h.1)

end

/-- **When marked text is decoded.** For every text of Unicode scalar values other than zero and
each of the six multi-byte orders, detecting the order and converting what stands behind the mark
writes the UTF-8 form of the text iff the order is native UTF-32; or native UTF-16 and the `int`
indices suffice; or 3412, they suffice, and all characters are multiples of `0x100` below `0x10000`.
Of the other orders two have marks that are not detected, and the flips of the rest swap bytes one
place behind those of the groups. -/
theorem decode_encode_iff {order : ByteOrder} {text : List Char} {outsz : Nat}
    (horder : order ≠ .byte ∧ order ≠ .unknown) (htext : text ≠ [])
    (hzero : ∀ c ∈ text, c.toNat ≠ 0) (hroom : (utf8Text text).length < outsz) :
    decode (encode order (byteOrderMark :: text)) outsz = some (utf8Text text) ↔
      order = .ucs4 ∨ (order = .ucs2 ∧ (utf8Text text).length ≤ intMax) ∨
        (order = .ucs4Swap3412 ∧ 4 * text.length ≤ intMax ∧
          ∀ c ∈ text, c.toNat % 0x100 = 0 ∧ c.toNat < 0x10000) := by
  obtain ⟨c, text, rfl⟩ := List.exists_cons_of_ne_nil htext
  have hc := hzero c List.mem_cons_self
  cases order with
  | byte => exact absurd rfl horder.1
  | unknown => exact absurd rfl horder.2
  | ucs4 => simp [decode_ucs4 hroom]
  | ucs2 => simp [decode_ucs2 hc hroom]
  | ucs4Swap3412 => simp [decode_3412 hroom]
  | ucs4Swap4321 => simp [decode_4321 hc]
  | ucs2Swap =>
    obtain ⟨a, b, s, hbytes⟩ : ∃ a b s, encode .ucs2Swap (c :: text) = a :: b :: s := by
      rw [encode, List.flatMap_cons, encodeChar, utf16]
      split
      · exact ⟨_, _, _, rfl⟩
      · exact ⟨_, _, _, rfl⟩
    have hmark : encode .ucs2Swap (byteOrderMark :: c :: text) = 0xFE :: 0xFF :: a :: b :: s :=
      congrArg (fun s => 0xFE :: 0xFF :: s) hbytes
    rw [hmark]
    exact iff_of_false (decode_swapped _ _ _ (Nat.zero_lt_of_lt hroom)) (by simp)
  | ucs4Swap2143 =>
    exact iff_of_false (decode_swapped _ _ _ (Nat.zero_lt_of_lt hroom)) (by simp)

/-- The text `A` in native UTF-32. -/
theorem decode_encode_example :
    decode (encode .ucs4 [byteOrderMark, 'A']) 8 = some (utf8Text ['A']) := by
  have hzero : ∀ c ∈ ['A'], c.toNat ≠ 0 := by
    intro c hc
    rw [List.mem_singleton.mp hc]
    decide
  exact (decode_encode_iff (by decide) (by decide) hzero (by decide +kernel)).mpr (.inl rfl)

/-- The mark of UTF-16 text of the other order is not recognised, and the bytes are copied. -/
theorem decode_encode_fails :
    decode (encode .ucs2Swap [byteOrderMark, 'A']) 8 = some [0xFE, 0xFF, 0x00, 0x41] ∧
      decode (encode .ucs2Swap [byteOrderMark, 'A']) 8 ≠ some (utf8Text ['A']) := by
  decide +kernel

end Eltn
