import Eltn.KeySet.Values

/-!
# Numbers that compare equal

Over any sequence of additions the table stays sound and loses no key (`addAll_keeps`), so a number
that was added has an equal key in the table (`addAll_number`). `number_found_iff` says when
`has_key` finds it by another number that compares equal: the two zeros are equal, but their bytes
and so their hashes differ, and `has_key` gives up where the slot it tries first is empty.
-/

namespace Eltn

namespace KeySet

section
variable {s : KeySet} {a : Add} {adds : List Add}

/-- The table is sound and light, and it has the keys of another one, perhaps among others. -/
structure Keeps (s s' : KeySet) : Prop where
  sound : s'.Sound
  light : s'.Light
  stored : s.stored ⊆ s'.stored

/-- A call of `Key_Set_add_key` loses no key. -/
theorem addKey_keeps (h : s.Sound) (hlight : s.Light) (ha : a.heap.Allocates) :
    s.Keeps (s.addKey a.heap a.type a.str).2 := by
  by_cases ht : a.type = .empty
  · have hsame : s.addKey a.heap a.type a.str = (false, s) := by simp [addKey, ht]
    rw [hsame]
    exact ⟨h, hlight, List.Subset.refl _⟩
  obtain ⟨p, hp, -⟩ := initKey_true a.type a.str a.heap.keyAfter
  have hspec := addKey_spec a.type a.str h hlight ha ht hp
  split at hspec
  · rw [hspec]
    exact ⟨h, hlight, List.Subset.refl _⟩
  · obtain ⟨s', hs', hsound, hlight', hperm⟩ := hspec
    rw [hs']
    exact ⟨hsound, hlight', fun k hk => hperm.mem_iff.mpr (List.mem_cons_of_mem p hk)⟩

/-- Keys are added one after the other. -/
theorem addAll_cons :
    (addAll (a :: adds) s).2 = (addAll adds (s.addKey a.heap a.type a.str).2).2 := rfl

/-- **A sequence of additions loses no key**, whatever is added, while memory lasts. -/
theorem addAll_keeps (h : s.Sound) (hlight : s.Light) (hadds : ∀ a ∈ adds, a.heap.Allocates) :
    s.Keeps (addAll adds s).2 := by
  induction adds generalizing s with
  | nil => exact ⟨h, hlight, List.Subset.refl _⟩
  | cons a adds ih =>
    obtain ⟨ha, htail⟩ := List.forall_mem_cons.mp hadds
    have hfirst := addKey_keeps h hlight ha
    have hrest := ih hfirst.sound hfirst.light htail
    exact ⟨hrest.sound, hrest.light, List.Subset.trans hfirst.stored hrest.stored⟩

/-- A call for a number that compares equal to `val`, both times read as far as the bytes passed
go. -/
structure Add.IsNumber (a : Add) (val : Double) : Prop where
  type : a.type = .number
  val : (strtod a.str).1.eq val = true
  probe : ReadsExactly a.type a.str a.heap.probeAfter
  reads : ReadsExactly a.type a.str a.heap.keyAfter

/-- The table has a number equal to the value. -/
def HasNumber (s : KeySet) (val : Double) : Prop :=
  ∃ k ∈ s.stored, k.type = .number ∧ val.eq k.num = true

theorem isEqual_number {k : Key} {str : Bytes} {val : Double} :
    isEqual { type := .number, len := str.length, str := strncpy str str.length, num := val } k =
      true ↔ k.type = .number ∧ val.eq k.num = true := by
  unfold isEqual
  dsimp only
  split
  · next hne => simp [Ne.symm hne]
  · next heq =>
    have htype : k.type = .number := by simpa using Eq.symm (not_not.mp heq)
    simp [htype]

variable {str after : Bytes} {val : Double}

/-- **`Key_Set_has_key` on a number**: the slot it tries first holds a key, and some number in the
table is equal. -/
theorem hasKey_number (h : s.Sound) (hpos : 0 < s.arraysize)
    (hread : ReadsExactly .number str after) :
    s.hasKey true .number str after = true ↔
      s.HomeUsed (hashDouble (strtod str).1) ∧ s.HasNumber (strtod str).1 := by
  rw [hasKey_iff h hpos rfl, if_pos rfl, hread rfl]
  simp only [hashvalue, HasNumber, isEqual_number]

/-- A number that is added has an equal key in the table: its own, or the one that kept it out. -/
theorem addKey_number (h : s.Sound) (hlight : s.Light) (ha : a.heap.Allocates)
    (hnum : a.IsNumber val) : (s.addKey a.heap a.type a.str).2.HasNumber val := by
  obtain ⟨htype, hval, hprobe, hreads⟩ := hnum
  obtain ⟨type, str, heap⟩ := a
  obtain rfl : type = .number := htype
  have hspec := addKey_spec .number str h hlight ha nofun rfl
  split at hspec
  · next hfound =>
    obtain ⟨-, k, hk, hktype, heq⟩ :=
      (hasKey_number h (Nat.zero_lt_of_lt hlight.room) hprobe).mp hfound
    rw [hspec]
    exact ⟨k, hk, hktype, Double.eq_trans (Double.eq_comm hval) heq⟩
  · obtain ⟨s', hs', -, -, hperm⟩ := hspec
    rw [hs']
    refine ⟨_, hperm.mem_iff.mpr List.mem_cons_self, rfl, ?_⟩
    rw [if_pos rfl, hreads rfl]
    exact Double.eq_comm hval

/-- A number that was added has an equal key in the table ever after. By induction on the calls,
with `addKey_number` for the one that adds it and `addKey_keeps` for those behind. -/
theorem addAll_number (h : s.Sound) (hlight : s.Light) (hadds : ∀ a ∈ adds, a.heap.Allocates)
    (ha : a ∈ adds) (hnum : a.IsNumber val) : (addAll adds s).2.HasNumber val := by
  induction adds generalizing s with
  | nil => cases ha
  | cons b adds ih =>
    obtain ⟨hb, htail⟩ := List.forall_mem_cons.mp hadds
    have hfirst := addKey_keeps h hlight hb
    rw [addAll_cons]
    rcases List.mem_cons.mp ha with rfl | ha
    · obtain ⟨k, hk, hkey⟩ := addKey_number h hlight hb hnum
      have hrest := addAll_keeps hfirst.sound hfirst.light htail
      exact ⟨k, hrest.stored hk, hkey⟩
    · exact ih hfirst.sound hfirst.light htail ha

/-- A nonzero number equal to one in the table has its hash, whose slot is taken. -/
theorem HasNumber.homeUsed (hnum : s.HasNumber val) (h : s.Sound) (hzero : val.isZero = false) :
    s.HomeUsed (hashDouble val) := by
  obtain ⟨k, hk, htype, heq⟩ := hnum
  have hkzero : k.num.isZero = false := Double.eq_isZero heq ▸ hzero
  have hhash : hashvalue k = hashDouble val := by
    rw [Double.eq_of_eq heq hkzero, hashvalue, htype]
  exact hhash ▸ h.homeUsed hk

/-- **When a number is found by one that compares equal.** After any sequence of additions, one of
them of a number equal to that of `str`, the set has the number of `str` and refuses to add it iff
this is not zero or the slot of its hash holds a key. The hash is one of the bytes of the double, in
which the two zeros differ, and a lookup ends at once if the slot of its own hash is empty. -/
theorem number_found_iff {heap : Heap} (hadds : ∀ a ∈ adds, a.heap.Allocates) (ha : a ∈ adds)
    (hnum : a.IsNumber (strtod str).1) (hread : ReadsExactly .number str after)
    (hheap : heap.Allocates) (hprobe : ReadsExactly .number str heap.probeAfter) :
    ((addAll adds new).2.hasKey true .number str after = true ∧
        ((addAll adds new).2.addKey heap .number str).1 = false) ↔
      ((strtod str).1.isZero = false ∨
        (addAll adds new).2.HomeUsed (hashDouble (strtod str).1)) := by
  have hkeeps := addAll_keeps new_sound new_light hadds
  have hhas := addAll_number new_sound new_light hadds ha hnum
  generalize (addAll adds new).2 = s at hkeeps hhas ⊢
  have hpos := Nat.zero_lt_of_lt hkeeps.light.room
  have hfirst := hasKey_number hkeeps.sound hpos hread
  have hsecond := hasKey_number hkeeps.sound hpos hprobe
  have hspec := addKey_spec .number str hkeeps.sound hkeeps.light hheap nofun rfl
  constructor
  · rintro ⟨hfound, -⟩
    exact .inr (hfirst.mp hfound).1
  · intro hcases
    have hhome : s.HomeUsed (hashDouble (strtod str).1) :=
      hcases.elim (hhas.homeUsed hkeeps.sound) id
    rw [if_pos (hsecond.mpr ⟨hhome, hhas⟩)] at hspec
    exact ⟨hfirst.mpr ⟨hhome, hhas⟩, by rw [hspec]⟩

/-- The number 16 in two spellings. -/
theorem number_found_example :
    (addAll [⟨.number, ascii "0x10", {}⟩] new).2.hasKey true .number (ascii "16") [] = true ∧
      ((addAll [⟨.number, ascii "0x10", {}⟩] new).2.addKey {} .number (ascii "16")).1 = false :=
  (number_found_iff (a := ⟨.number, ascii "0x10", {}⟩) (by simp [Heap.Allocates])
    List.mem_cons_self ⟨rfl, by decide +kernel, fun _ => by decide +kernel,
      fun _ => by decide +kernel⟩ (fun _ => by decide +kernel) ⟨rfl, rfl, rfl⟩
    fun _ => by decide +kernel).mpr (.inl (by decide +kernel))

/-- The two zeros: `-0` is not found after `0`, and can be added. -/
theorem number_found_fails :
    ReadsExactly .number (ascii "0") [] ∧ ReadsExactly .number (ascii "-0") [] ∧
      (strtod (ascii "0")).1.eq (strtod (ascii "-0")).1 = true ∧
      (addAll [⟨.number, ascii "0", {}⟩] new).1 = [true] ∧
      ¬ ((addAll [⟨.number, ascii "0", {}⟩] new).2.hasKey true .number (ascii "-0") [] = true ∧
        ((addAll [⟨.number, ascii "0", {}⟩] new).2.addKey {} .number (ascii "-0")).1 = false) := by
  decide +kernel

end

end KeySet

end Eltn
