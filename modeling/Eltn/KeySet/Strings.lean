import Eltn.KeySet.Numbers

/-!
# Strings that compare equal

A string key is copied by `strncpy` and compared by `strncmp`, which both stop at a zero byte: what
the table holds of a string is its length and its bytes before the first zero byte
(`stringKey_inj`). `string_found_iff` says when `has_key` and `add_key` decide a string by all of
its bytes.
-/

namespace Eltn

/-! ## Blocks of bytes -/

/-- `strncpy` keeps the bytes before the first zero byte. The rest of the block is zero, so two
blocks are the same exactly if these bytes are. -/
theorem strncpy_eq (s : Bytes) :
    strncpy s s.length = s.takeWhile (· ≠ 0) ++
      List.replicate (s.length - (s.takeWhile (· ≠ 0)).length) 0 := by
  induction s with
  | nil => rfl
  | cons c s ih =>
    rw [List.length_cons, strncpy, List.headD_cons]
    by_cases hc : c = 0
    · simp [hc]
    · simp [hc, ih]

/-- A copy keeps the bytes up to the first zero byte. -/
theorem takeWhile_strncpy (s : Bytes) :
    (strncpy s s.length).takeWhile (· ≠ 0) = s.takeWhile (· ≠ 0) := by
  have hpre : ∀ c ∈ s.takeWhile (· ≠ 0), decide (c ≠ 0) = true :=
    List.all_eq_true.mp List.all_takeWhile
  have htail (n : Nat) : (List.replicate n (0 : UInt8)).takeWhile (· ≠ 0) = [] := by
    cases n <;> simp [List.replicate_succ]
  rw [strncpy_eq, List.takeWhile_append_of_pos hpre, htail, List.append_nil]

/-- Copied blocks of one length are compared in full. -/
theorem strncmpEq_blocks (a b : Bytes) (n : Nat) :
    strncmpEq (strncpy a n) (strncpy b n) n = true ↔ strncpy a n = strncpy b n := by
  induction n generalizing a b with
  | zero => simp [strncmpEq, strncpy]
  | succ n ih =>
    rw [strncpy, strncpy]
    generalize a.headD 0 = x, b.headD 0 = y
    by_cases hx : x = 0 <;> by_cases hy : y = 0
    · simp [hx, hy, strncmpEq, List.replicate_succ]
    · simp [hx, hy, strncmpEq, List.replicate_succ, Ne.symm hy]
    · simp [hx, hy, strncmpEq, List.replicate_succ]
    · by_cases hxy : x = y <;> simp [hx, hy, hxy, strncmpEq, ih]

namespace KeySet

/-- The key of a string. -/
def stringKey (str : Bytes) : Key :=
  { type := .string, len := str.length, str := strncpy str str.length }

/-- The string keys of the table were made of strings. -/
def Strings (s : KeySet) : Prop :=
  ∀ k ∈ s.stored, k.type = .string → ∃ str, k = stringKey str

section
variable {s : KeySet} {a : Add} {adds : List Add} {t : KeyType} {str str' after : Bytes}

/-- **Two strings have one key** iff they have one length and the same bytes before the first zero
byte. -/
theorem stringKey_inj : stringKey str = stringKey str' ↔
    str.length = str'.length ∧ str.takeWhile (· ≠ 0) = str'.takeWhile (· ≠ 0) := by
  simp only [stringKey, Key.mk.injEq, true_and, and_true]
  refine and_congr_right fun hlen => ⟨fun heq => ?_, fun heq => ?_⟩
  · rw [← takeWhile_strncpy str, heq, takeWhile_strncpy]
  · rw [strncpy_eq, strncpy_eq, heq, hlen]

/-- Where its allocation succeeds `init_key` makes the same key of a string whatever stands behind
its block. -/
theorem initKey_string (str after : Bytes) :
    initKey true .string str after = some (stringKey str) := rfl

/-- String keys compare equal exactly where they are the same: `strncpy` has cut both at their zero
bytes. -/
theorem isEqual_stringKey : isEqual (stringKey str) (stringKey str') = true ↔
    stringKey str = stringKey str' := by
  have hcmp : isEqual (stringKey str) (stringKey str') = (decide (str.length = str'.length) &&
      strncmpEq (strncpy str str.length) (strncpy str' str'.length) str.length) := rfl
  rw [hcmp, Bool.and_eq_true, decide_eq_true_eq]
  simp only [stringKey, Key.mk.injEq, true_and, and_true]
  refine and_congr_right fun hlen => ?_
  rw [← hlen]
  exact strncmpEq_blocks str str' str.length

/-- **`Key_Set_has_key` on a string** looks for the key that its copy makes, which ends at the first
zero byte. -/
theorem hasKey_string (h : s.Sound) (hpos : 0 < s.arraysize) (hstr : s.Strings) :
    s.hasKey true .string str after = true ↔ stringKey str ∈ s.stored := by
  rw [hasKey_iff h hpos (initKey_string str after)]
  constructor
  · rintro ⟨-, k, hk, heq⟩
    have htype : k.type = .string := by
      by_contra hne
      simp [isEqual, stringKey, Ne.symm hne] at heq
    obtain ⟨str', rfl⟩ := hstr k hk htype
    rwa [isEqual_stringKey.mp heq]
  · intro hk
    exact ⟨h.homeUsed hk, _, hk, isEqual_stringKey.mpr rfl⟩

/-- A call of `Key_Set_add_key` adds the key of its string and no other; a number adds no key of a
string. A key that was found is there already (`hasKey_string`); one that was not is stored as
`addKey_spec` says. -/
theorem addKey_strings (h : s.Sound) (hlight : s.Light) (hstr : s.Strings)
    (ha : a.heap.Allocates) :
    (s.addKey a.heap a.type a.str).2.Strings ∧
      ∀ str, stringKey str ∈ (s.addKey a.heap a.type a.str).2.stored ↔
        stringKey str ∈ s.stored ∨ a.type = .string ∧ stringKey a.str = stringKey str := by
  obtain ⟨t, key, heap⟩ := a
  dsimp only at ha ⊢
  by_cases ht : t = .empty
  · subst ht
    simpa [addKey] using hstr
  obtain ⟨p, hp, htype⟩ := initKey_true t key heap.keyAfter
  have hspec := addKey_spec t key h hlight ha ht hp
  split at hspec
  · next hfound =>
    rw [hspec]
    refine ⟨hstr, fun str => (or_iff_left_of_imp ?_).symm⟩
    rintro ⟨rfl, heq⟩
    rw [← heq]
    exact (hasKey_string h (Nat.zero_lt_of_lt hlight.room) hstr).mp hfound
  · obtain ⟨s', hs', -, -, hperm⟩ := hspec
    rw [hs']
    refine ⟨fun k hk hktype => ?_, fun str => ?_⟩
    · rcases List.mem_cons.mp (hperm.mem_iff.mp hk) with rfl | hk
      · obtain rfl : t = .string := htype.symm.trans hktype
        exact ⟨key, (Option.some.inj hp).symm⟩
      · exact hstr k hk hktype
    · have hnew : stringKey str = p ↔ t = .string ∧ stringKey key = stringKey str := by
        constructor
        · intro heq
          obtain rfl : t = .string := htype.symm.trans (heq ▸ rfl)
          exact ⟨rfl, (Option.some.inj hp).trans heq.symm⟩
        · rintro ⟨rfl, heq⟩
          exact heq.symm.trans (Option.some.inj hp)
      rw [hperm.mem_iff, List.mem_cons, hnew, or_comm]

/-- **After a sequence of additions** the table has the keys of the strings added, besides those
that it had. By induction on the calls. -/
theorem addAll_strings (h : s.Sound) (hlight : s.Light) (hstr : s.Strings)
    (hadds : ∀ a ∈ adds, a.heap.Allocates) :
    (addAll adds s).2.Strings ∧
      ∀ str, stringKey str ∈ (addAll adds s).2.stored ↔
        stringKey str ∈ s.stored ∨
          ∃ a ∈ adds, a.type = .string ∧ stringKey a.str = stringKey str := by
  induction adds generalizing s with
  | nil => exact ⟨hstr, by simp [addAll]⟩
  | cons a adds ih =>
    obtain ⟨ha, htail⟩ := List.forall_mem_cons.mp hadds
    have hkeeps := addKey_keeps h hlight ha
    obtain ⟨hfirst, hmem⟩ := addKey_strings h hlight hstr ha
    obtain ⟨hrest, hlast⟩ := ih hkeeps.sound hkeeps.light hfirst htail
    rw [addAll_cons]
    refine ⟨hrest, fun str => ?_⟩
    rw [hlast, hmem]
    simp [or_assoc]

/-- A new set holds no keys, so none that is no string. -/
theorem new_strings : new.Strings := by simp [Strings, stored_new]

/-- **When a string is decided by all of its bytes.** After any sequence of additions, `has_key`
finds exactly the strings added and `add_key` takes exactly the others, iff the string was added or
no string added has its length and its bytes before the first zero byte. The bytes behind a zero
byte are neither copied by `strncpy` nor compared by `strncmp`. -/
theorem string_found_iff {heap : Heap} (str after : Bytes) (hadds : ∀ a ∈ adds, a.heap.Allocates)
    (hheap : heap.Allocates) :
    (((addAll adds new).2.hasKey true .string str after = true ↔
          ∃ a ∈ adds, a.type = .string ∧ a.str = str) ∧
        (((addAll adds new).2.addKey heap .string str).1 = true ↔
          ¬ ∃ a ∈ adds, a.type = .string ∧ a.str = str)) ↔
      ((∃ a ∈ adds, a.type = .string ∧ a.str = str) ∨
        ∀ a ∈ adds, a.type = .string → a.str.length = str.length →
          a.str.takeWhile (· ≠ 0) ≠ str.takeWhile (· ≠ 0)) := by
  have hkeeps := addAll_keeps new_sound new_light hadds
  obtain ⟨hstr, hmem⟩ := addAll_strings new_sound new_light new_strings hadds
  replace hmem := hmem str
  generalize (addAll adds new).2 = s at hkeeps hstr hmem ⊢
  have hpos := Nat.zero_lt_of_lt hkeeps.light.room
  have hspec := addKey_spec .string str hkeeps.sound hkeeps.light hheap (by simp)
    (initKey_string str _)
  have hadd : (s.addKey heap .string str).1 = true ↔ ¬ stringKey str ∈ s.stored := by
    have hhas : s.hasKey true .string str heap.probeAfter = true ↔ stringKey str ∈ s.stored :=
      hasKey_string hkeeps.sound hpos hstr
    rw [← hhas]
    split at hspec
    · next hfound => simp [hspec, hfound]
    · next hfound =>
      obtain ⟨s', hs', -⟩ := hspec
      simp [hs', hfound]
  rw [hadd, hasKey_string hkeeps.sound hpos hstr, hmem, stored_new]
  simp only [stringKey_inj, List.not_mem_nil, false_or, not_iff_not, and_self]
  have hsame : (∃ a ∈ adds, a.type = .string ∧ a.str = str) →
      ∃ a ∈ adds, a.type = .string ∧
        a.str.length = str.length ∧ a.str.takeWhile (· ≠ 0) = str.takeWhile (· ≠ 0) := by
    rintro ⟨a, ha, htype, rfl⟩
    exact ⟨a, ha, htype, rfl, rfl⟩
  constructor
  · intro hiff
    by_cases hadded : ∃ a ∈ adds, a.type = .string ∧ a.str = str
    · exact .inl hadded
    · exact .inr fun a ha htype hlen heq => hadded (hiff.mp ⟨a, ha, htype, hlen, heq⟩)
  · rintro (hadded | hnone)
    · exact iff_of_true (hsame hadded) hadded
    · refine ⟨?_, hsame⟩
      rintro ⟨a, ha, htype, hlen, heq⟩
      exact absurd heq (hnone a ha htype hlen)

/-- Two strings with a zero byte, told apart by the byte before it. -/
theorem string_found_example :
    ((addAll [⟨.string, [0x61, 0, 0x62], {}⟩] new).2.hasKey true .string [0x63, 0, 0x62] [] =
          true ↔
        ∃ a ∈ ([⟨.string, [0x61, 0, 0x62], {}⟩] : List Add),
          a.type = .string ∧ a.str = [0x63, 0, 0x62]) ∧
      (((addAll [⟨.string, [0x61, 0, 0x62], {}⟩] new).2.addKey {} .string [0x63, 0, 0x62]).1 =
          true ↔
        ¬ ∃ a ∈ ([⟨.string, [0x61, 0, 0x62], {}⟩] : List Add),
          a.type = .string ∧ a.str = [0x63, 0, 0x62]) :=
  (string_found_iff [0x63, 0, 0x62] [] (by simp [Heap.Allocates]) (by simp [Heap.Allocates])).mpr
    (.inr (by simp))

/-- `"a\0b"` and `"a\0c"` differ behind their zero byte only: the second is found after the first,
and refused. -/
theorem string_found_fails :
    ¬ (((addAll [⟨.string, [0x61, 0, 0x62], {}⟩] new).2.hasKey true .string [0x61, 0, 0x63] [] =
          true ↔
        ∃ a ∈ ([⟨.string, [0x61, 0, 0x62], {}⟩] : List Add),
          a.type = .string ∧ a.str = [0x61, 0, 0x63]) ∧
      (((addAll [⟨.string, [0x61, 0, 0x62], {}⟩] new).2.addKey {} .string [0x61, 0, 0x63]).1 =
          true ↔
        ¬ ∃ a ∈ ([⟨.string, [0x61, 0, 0x62], {}⟩] : List Add),
          a.type = .string ∧ a.str = [0x61, 0, 0x63])) := by
  decide +kernel

end

end KeySet

end Eltn
