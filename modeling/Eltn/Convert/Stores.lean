import Eltn.Convert.Text
import Eltn.Lib.Blocks

/-!
# The output block

The converters on the block they write to, whose stores have no result outside it. The only room
tests are those of the source: the loops test `j < outsz`, and `write_utf8` tests for its longer
forms only. What `C_Conv_char32_to_8` leaves in front of the block is the UTF-8 form of the first
characters of a text (`char32To8Into_prefix`).
-/

namespace Eltn

open Unicode

/-- `write_utf8` on the block `outbuf`: the block and the number of bytes stored. -/
def writeUtf8Into (cp outsz : Nat) (outbuf : Bytes) (j : Nat) : Option (Bytes × Nat) :=
  let written := writeUtf8 cp outsz j
  (Blocks.storeAll written j outbuf).map fun outbuf => (outbuf, written.length)

/-- The loop of `C_Conv_char32_to_8` on its block: a store beyond the block has no result. -/
def char32To8IntoLoop (outsz : Nat) : List Nat → Bytes → Nat → Option (Bytes × Nat)
  | [], outbuf, j => some (outbuf, j)
  | cp :: inbuf, outbuf, j =>
    if j < outsz then do
      let wrote ← writeUtf8Into cp outsz outbuf j
      if wrote.2 = 0 then some (wrote.1, j)
      else char32To8IntoLoop outsz inbuf wrote.1 (j + wrote.2)
    else some (outbuf, j)

/-- `C_Conv_char32_to_8` on a block of `outsz` bytes: the block and the result. -/
def char32To8Into (inbuf : List Nat) (outbuf : Bytes) : Option (Bytes × Nat) :=
  char32To8IntoLoop outbuf.length inbuf outbuf 0

section
variable {cp outsz j : Nat} {cps : List Nat} {c : Char} {text : List Char} {out gap : Bytes}

/-! ## Stores -/

/-- The tests of the caller and of `write_utf8` together keep the form inside. -/
theorem writeUtf8_fits (cp : Nat) (hj : j < outsz) : j + (writeUtf8 cp outsz j).length ≤ outsz := by
  rw [writeUtf8]
  repeat' split
  all_goals simp only [List.length_cons, List.length_nil]; omega

/-- In front of the gap that is left, `write_utf8` stores the bytes of the model over the first
cells of the gap. -/
theorem writeUtf8Into_eq (hj : out.length < outsz) (hgap : out.length + gap.length = outsz) :
    writeUtf8Into cp outsz (out ++ gap) out.length =
      some (out ++ writeUtf8 cp outsz out.length ++ gap.drop (writeUtf8 cp outsz out.length).length,
        (writeUtf8 cp outsz out.length).length) := by
  have hfits : (writeUtf8 cp outsz out.length).length ≤ gap.length := by
    have := writeUtf8_fits cp hj
    omega
  rw [writeUtf8Into, Blocks.storeAll_room out hfits, Option.map_some]

/-- The loop on its block stores what the loop writes, and leaves the rest: `gap` is what the block
holds behind the bytes written so far. By induction on the characters: each is stored at the front
of the gap, or the loop ends. -/
theorem char32To8IntoLoop_eq (cps : List Nat) (hgap : out.length + gap.length = outsz) :
    ∃ text, char32To8Loop outsz cps out = out ++ text ∧ text.length ≤ gap.length ∧
      char32To8IntoLoop outsz cps (out ++ gap) out.length =
        some (out ++ text ++ gap.drop text.length, out.length + text.length) := by
  induction cps generalizing out gap with
  | nil => exact ⟨[], by simp [char32To8Loop], Nat.zero_le _, by simp [char32To8IntoLoop]⟩
  | cons cp cps ih =>
    rw [char32To8Loop, char32To8IntoLoop]
    split
    · next hj =>
      have hfits := writeUtf8_fits cp hj
      rw [writeUtf8Into_eq hj hgap]
      dsimp only [Option.bind_eq_bind, Option.bind_some]
      generalize writeUtf8 cp outsz out.length = written at hfits ⊢
      split
      · next hnil =>
        subst hnil
        exact ⟨[], by simp, Nat.zero_le _, by simp⟩
      · next hne =>
        have hlen : ¬ written.length = 0 := fun h => hne (List.length_eq_zero_iff.mp h)
        have hroom : (out ++ written).length + (gap.drop written.length).length = outsz := by
          simp only [List.length_append, List.length_drop]
          omega
        obtain ⟨text, hloop, htext, hinto⟩ := ih hroom
        refine ⟨written ++ text, ?_, ?_, ?_⟩
        · rw [hloop, List.append_assoc]
        · rw [List.length_drop] at htext
          rw [List.length_append]
          omega
        · rw [if_neg hlen, ← List.length_append, hinto, List.drop_drop]
          simp only [List.length_append, List.append_assoc, Nat.add_assoc]
    · exact ⟨[], by simp, Nat.zero_le _, by simp⟩

/-! ## Whole characters -/

/-- `C_Conv_char32_to_8` has room for the character behind `j` bytes. An ASCII character needs one
byte; any other needs one byte more than its UTF-8 form is long, as `write_utf8` tests it. -/
def HasRoom (outsz j : Nat) (c : Char) : Prop :=
  if c.toNat ≤ 0x7F then j < outsz else j + (utf8 c.toNat).length < outsz

instance (outsz j : Nat) (c : Char) : Decidable (HasRoom outsz j c) :=
  inferInstanceAs
    (Decidable (if c.toNat ≤ 0x7F then j < outsz else j + (utf8 c.toNat).length < outsz))

/-- A character that there is room for is written whole. -/
theorem writeUtf8_hasRoom (h : HasRoom outsz j c) : writeUtf8 c.toNat outsz j = utf8 c.toNat := by
  unfold HasRoom at h
  split at h
  · next h7F => exact writeUtf8_ascii h7F
  · exact writeUtf8_room (char_lt c) h

/-- The loop stops at a character that there is no room for. -/
theorem char32To8Loop_stop (h : ¬ HasRoom outsz out.length c) :
    char32To8Loop outsz (c.toNat :: cps) out = out := by
  unfold HasRoom at h
  rw [char32To8Loop]
  split at h
  · rw [if_neg h]
  · next h7F =>
    rw [writeUtf8_full (char_lt c) (Nat.not_le.mp h7F) h]
    simp

/-- It goes on behind any other. The form of the character is stored as a whole. -/
theorem char32To8Loop_go (h : HasRoom outsz out.length c) :
    char32To8Loop outsz (c.toNat :: cps) out = char32To8Loop outsz cps (out ++ utf8 c.toNat) := by
  have hlt : out.length < outsz := by
    unfold HasRoom at h
    split at h
    · exact h
    · exact Nat.lt_of_le_of_lt (Nat.le_add_right _ _) h
  rw [char32To8Loop, if_pos hlt, writeUtf8_hasRoom h]
  exact if_neg (utf8_ne_nil _)

/-- A text is written character by character, up to the first for which there is no room. Every
character is written whole or not at all. -/
theorem char32To8Loop_whole (outsz : Nat) (text : List Char) (out : Bytes) :
    ∃ pre rest, pre ++ rest = text ∧
      char32To8Loop outsz (text.map Char.toNat) out = out ++ utf8Text pre ∧
      ∀ c ∈ rest.head?, ¬ HasRoom outsz (out ++ utf8Text pre).length c := by
  induction text generalizing out with
  | nil => exact ⟨[], [], rfl, (List.append_nil out).symm, fun c hc => by cases hc⟩
  | cons c text ih =>
    rw [List.map_cons]
    by_cases hroom : HasRoom outsz out.length c
    · obtain ⟨pre, rest, rfl, hloop, hstop⟩ := ih (out ++ utf8 c.toNat)
      refine ⟨c :: pre, rest, rfl, ?_, ?_⟩
      · rw [char32To8Loop_go hroom, hloop, utf8Text_cons, List.append_assoc]
      · rwa [utf8Text_cons, ← List.append_assoc]
    · have hnone : out ++ utf8Text [] = out := List.append_nil out
      refine ⟨[], c :: text, rfl, (char32To8Loop_stop hroom).trans hnone.symm, ?_⟩
      intro d hd
      obtain rfl := Option.some.inj hd
      rwa [hnone]

/-- Decoding the UTF-8 form of a text. -/
theorem utf8Decode_utf8Text (text : List Char) :
    (utf8Text text).toByteArray.utf8Decode? = some text.toArray :=
  List.utf8Decode?_utf8Encode

/-- **The output is a prefix of whole characters.** For every text and every output block,
`C_Conv_char32_to_8` stores inside the block only, below the index `j` that it returns only, and the
first `j` bytes are the UTF-8 form of the first characters of the text, which decoding them gives
back: of all that come before the first character that there is no room for. -/
theorem char32To8Into_prefix (text : List Char) (outbuf : Bytes) :
    ∃ buf j pre, char32To8Into (text.map Char.toNat) outbuf = some (buf, j) ∧
      j ≤ outbuf.length ∧ buf.length = outbuf.length ∧ buf.drop j = outbuf.drop j ∧
      pre <+: text ∧ buf.take j = utf8Text pre ∧
      (buf.take j).toByteArray.utf8Decode? = some pre.toArray ∧
      ∀ c rest, text = pre ++ c :: rest → ¬ HasRoom outbuf.length j c := by
  obtain ⟨pre, rest, rfl, hwhole, hstop⟩ := char32To8Loop_whole outbuf.length text []
  have hroom : ([] : Bytes).length + outbuf.length = outbuf.length := Nat.zero_add _
  obtain ⟨written, hloop, hlen, hinto⟩ := char32To8IntoLoop_eq ((pre ++ rest).map Char.toNat) hroom
  obtain rfl : written = utf8Text pre := by
    rw [hloop] at hwhole
    exact hwhole
  have htake : (utf8Text pre ++ outbuf.drop (utf8Text pre).length).take (utf8Text pre).length =
      utf8Text pre := List.take_left
  refine ⟨utf8Text pre ++ outbuf.drop (utf8Text pre).length, (utf8Text pre).length, pre,
    ?_, hlen, ?_, List.drop_left, List.prefix_append pre rest, htake, ?_, ?_⟩
  · rw [char32To8Into]
    simpa using hinto
  · rw [List.length_append, List.length_drop]
    omega
  · rw [htake, utf8Decode_utf8Text]
  · intro c rest' hrest
    obtain rfl := List.append_cancel_left hrest
    exact hstop c rfl

end

end Eltn
