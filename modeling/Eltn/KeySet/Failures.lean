import Eltn.KeySet.Strings
import Eltn.Lib.Runs

/-!
# Allocations that fail

A call of `Key_Set_add_key` makes three allocations: the key that `Key_Set_has_key` looks for, a
larger table, and the key that is stored. `addKey_cases` says what the call does for all outcomes of
them. One of the failures is taken for an answer: `Key_Set_has_key` returns `false` where it has no
memory for its key, and a key that is stored already is added again. `failures_iff` says which calls
keep the set.
-/

namespace Eltn

namespace KeySet

/-- The set after a call of `Key_Set_add_key`. -/
def add (s : KeySet) (a : Add) : KeySet := (s.addKey a.heap a.type a.str).2

/-- No two keys of the table are equal. -/
def Distinct (s : KeySet) : Prop := s.stored.Pairwise fun p q => isEqual p q = false

instance (s : KeySet) : Decidable s.Distinct :=
  inferInstanceAs (Decidable (s.stored.Pairwise fun p q => isEqual p q = false))

/-- What a call that adds a string should do whatever its allocations do: no two keys are equal
after it, it changes no keys when it returns `false` and adds its key when it returns `true`, and
the size is the number of keys. -/
structure Survives (s : KeySet) (a : Add) : Prop where
  distinct : (s.add a).Distinct
  unchanged : (s.addKey a.heap a.type a.str).1 = false → (s.add a).stored.Perm s.stored
  adds : (s.addKey a.heap a.type a.str).1 = true →
    (s.add a).stored.Perm ({ type := .string, len := a.str.length, str := a.str } :: s.stored)
  size : (s.add a).size = (s.add a).stored.length

/-- The condition on a call: the key to look for is allocated, or the key to store is not, or it is
a new key, or every slot of the table is taken and it does not grow. -/
def Meets (s : KeySet) (a : Add) : Prop :=
  a.heap.probe = true ∨ a.heap.key = false ∨ stringKey a.str ∉ s.stored ∨
    (s.nitems = s.arraysize ∧ a.heap.table = false)

instance (s : KeySet) (a : Add) : Decidable (s.Meets a) :=
  inferInstanceAs (Decidable (_ ∨ _ ∨ _ ∨ _ ∧ _))

/-- A table of distinct strings, whichever allocations have failed before: it may be as full as its
array. -/
structure Holds (s : KeySet) : Prop where
  sound : s.Sound
  pos : 0 < s.arraysize
  strings : ∀ k ∈ s.stored, ∃ str, k = stringKey str
  nodup : s.stored.Nodup

section
variable {s : KeySet} {a : Add} {str : Bytes} {heap : Heap}

/-! ## The outcomes of a call -/

/-- `add_key` finds no slot in a full table. -/
theorem addKeyEntry_full {p : Key} (h : s.Sound) (hpos : 0 < s.arraysize)
    (hfull : s.nitems = s.arraysize) : addKeyEntry p s = (false, s) := by
  have hentries : (Probing.entries Key.used s.array).length = s.array.length := by
    rw [h.length, ← hfull, h.count]
    rfl
  rw [addKeyEntry, Probing.insert_full (by rw [h.length]; exact hpos) hentries]

/-- The part of `Key_Set_add_key` behind the search: the table grows or not, and the key is stored
when it is allocated and has room. A table that could not grow is used on as it is, and only a full
one refuses the key. -/
theorem addKey_new (h : s.Sound) (hpos : 0 < s.arraysize)
    (hnew : s.hasKey heap.probe .string str heap.probeAfter = false) :
    ((heap.key = false ∨ s.nitems = s.arraysize ∧ heap.table = false) ∧
      ∃ s', s.addKey heap .string str = (false, s') ∧ s'.Sound ∧ 0 < s'.arraysize ∧
        s'.stored.Perm s.stored) ∨
    (heap.key = true ∧ (s.nitems = s.arraysize → heap.table = true)) ∧
      ∃ s', s.addKey heap .string str = (true, s') ∧ s'.Sound ∧ 0 < s'.arraysize ∧
        s'.stored.Perm (stringKey str :: s.stored) := by
  have hgrown : ∃ s₁, (if s.crowded then s.resize heap.table else s) = s₁ ∧ s₁.Sound ∧
      0 < s₁.arraysize ∧ s₁.stored.Perm s.stored ∧
      (s₁.nitems = s₁.arraysize ↔ s.nitems = s.arraysize ∧ heap.table = false) := by
    cases hcrowded : s.crowded with
    | false =>
      have hlight : 20 * (s.nitems + 1) < 13 * s.arraysize := by simpa [crowded] using hcrowded
      exact ⟨s, rfl, h, hpos, .refl _, fun hfull => absurd hfull (by omega), fun hfull => hfull.1⟩
    | true =>
      cases heap.table with
      | false => exact ⟨s, rfl, h, hpos, .refl _, fun hfull => ⟨hfull, rfl⟩, fun hfull => hfull.1⟩
      | true =>
        obtain ⟨hsound, hsize, hperm⟩ := resize_spec h h.nitems_le
        have hitems : (s.resize true).nitems = s.nitems := by
          rw [hsound.count, h.count, hperm.length_eq]
        have hle := h.nitems_le
        refine ⟨s.resize true, rfl, hsound, by omega, hperm,
          fun hfull => absurd hfull (by omega), ?_⟩
        rintro ⟨-, hno⟩
        cases hno
  obtain ⟨s₁, hs₁, hsound, hpos₁, hperm, hfull⟩ := hgrown
  have hadd : s.addKey heap .string str =
      (initKey heap.key .string str heap.keyAfter).elim (false, s₁) (s₁.addKeyEntry ·) := by
    rw [addKey, hnew]
    dsimp only
    rw [hs₁]
    cases initKey heap.key .string str heap.keyAfter <;> rfl
  rw [hadd]
  cases hkey : heap.key with
  | false => exact .inl ⟨.inl rfl, s₁, rfl, hsound, hpos₁, hperm⟩
  | true =>
    rw [initKey_string, Option.elim_some]
    rcases hsound.nitems_le.lt_or_eq with hroom | hno
    · have hgrows : s.nitems = s.arraysize → heap.table = true := by
        intro hitems
        by_contra htable
        exact hroom.ne (hfull.mpr ⟨hitems, by simpa using htable⟩)
      have hused : (stringKey str).used = true := rfl
      obtain ⟨s', hs', hsound', hsize, -, hperm'⟩ := addKeyEntry_spec hsound hused hroom
      exact .inr ⟨⟨rfl, hgrows⟩, s', hs', hsound', by omega, hperm'.trans (hperm.cons _)⟩
    · exact .inl ⟨.inr (hfull.mp hno), s₁, addKeyEntry_full hsound hpos₁ hno, hsound, hpos₁, hperm⟩

/-- What `Key_Set_has_key` answers for a string. -/
theorem Holds.hasKey_eq (h : s.Holds) (probe : Bool) (str after : Bytes) :
    s.hasKey probe .string str after = true ↔ probe = true ∧ stringKey str ∈ s.stored := by
  cases probe with
  | false => exact iff_of_false Bool.false_ne_true fun hno => Bool.false_ne_true hno.1
  | true =>
    rw [hasKey_string h.sound h.pos fun k hk _ => h.strings k hk]
    exact (and_iff_right rfl).symm

/-- **The outcomes of `Key_Set_add_key`** for a string: it finds the key; or it adds nothing, for
want of memory or room; or it adds the key. -/
theorem addKey_cases (h : s.Holds) (heap : Heap) (str : Bytes) :
    (heap.probe = true ∧ stringKey str ∈ s.stored ∧ s.addKey heap .string str = (false, s)) ∨
    (heap.probe = true → stringKey str ∉ s.stored) ∧
      (((heap.key = false ∨ s.nitems = s.arraysize ∧ heap.table = false) ∧
        ∃ s', s.addKey heap .string str = (false, s') ∧ s'.Sound ∧ 0 < s'.arraysize ∧
          s'.stored.Perm s.stored) ∨
      (heap.key = true ∧ (s.nitems = s.arraysize → heap.table = true)) ∧
        ∃ s', s.addKey heap .string str = (true, s') ∧ s'.Sound ∧ 0 < s'.arraysize ∧
          s'.stored.Perm (stringKey str :: s.stored)) := by
  have hhas := h.hasKey_eq heap.probe str heap.probeAfter
  cases hfound : s.hasKey heap.probe .string str heap.probeAfter with
  | true =>
    obtain ⟨hprobe, hmem⟩ := hhas.mp hfound
    refine .inl ⟨hprobe, hmem, ?_⟩
    rw [addKey, hfound]
    rfl
  | false =>
    refine .inr ⟨fun hprobe hmem => ?_, addKey_new h.sound h.pos hfound⟩
    rw [hhas.mpr ⟨hprobe, hmem⟩] at hfound
    cases hfound

/-! ## Calls that meet the condition -/

/-- The key of a string without a zero byte. -/
theorem stringKey_eq (h : 0 ∉ str) :
    stringKey str = { type := .string, len := str.length, str := str } := by
  rw [stringKey, strncpy_length h]

/-- String keys are equal as keys where they are the same. -/
theorem distinct_iff (hstr : ∀ k ∈ s.stored, ∃ str, k = stringKey str) :
    s.Distinct ↔ s.stored.Nodup := by
  refine List.Pairwise.iff_of_mem fun {p q} hp hq => ?_
  obtain ⟨str, rfl⟩ := hstr p hp
  obtain ⟨str', rfl⟩ := hstr q hq
  rw [Ne, ← isEqual_stringKey, Bool.not_eq_true]

/-- A table with the same keys. -/
theorem Holds.perm {s' : KeySet} (h : s.Holds) (hsound : s'.Sound) (hpos : 0 < s'.arraysize)
    (hperm : s'.stored.Perm s.stored) : s'.Holds where
  sound := hsound
  pos := hpos
  strings := fun k hk => h.strings k (hperm.mem_iff.mp hk)
  nodup := hperm.nodup_iff.mpr h.nodup

/-- A table with a new key is one of distinct strings again. -/
theorem Holds.cons {s' : KeySet} (h : s.Holds) (hsound : s'.Sound) (hpos : 0 < s'.arraysize)
    (hperm : s'.stored.Perm (stringKey str :: s.stored)) (hnew : stringKey str ∉ s.stored) :
    s'.Holds where
  sound := hsound
  pos := hpos
  strings := by
    intro k hk
    rcases List.mem_cons.mp (hperm.mem_iff.mp hk) with rfl | hk
    · exact ⟨str, rfl⟩
    · exact h.strings k hk
  nodup := hperm.nodup_iff.mpr (List.nodup_cons.mpr ⟨hnew, h.nodup⟩)

/-- A set that holds its invariant has no two equal keys. -/
theorem Holds.distinct (h : s.Holds) : s.Distinct := (distinct_iff h.strings).mpr h.nodup

/-- A call that returns `false` and leaves the keys. -/
theorem survives_false {s' : KeySet} (h : s'.Holds) (hperm : s'.stored.Perm s.stored)
    (hcall : s.addKey a.heap a.type a.str = (false, s')) : (s.add a).Holds ∧ s.Survives a := by
  have hadd : s.add a = s' := congrArg Prod.snd hcall
  rw [← hadd] at h hperm
  refine ⟨h, h.distinct, fun _ => hperm, fun htrue => ?_, h.sound.count⟩
  rw [hcall] at htrue
  cases htrue

/-- A call that returns `true` and adds its key is one that the set survives: the key is found
afterwards, and is there once. -/
theorem survives_true {s' : KeySet} (h : s'.Holds) (hnul : 0 ∉ a.str)
    (hperm : s'.stored.Perm (stringKey a.str :: s.stored))
    (hcall : s.addKey a.heap a.type a.str = (true, s')) : (s.add a).Holds ∧ s.Survives a := by
  have hadd : s.add a = s' := congrArg Prod.snd hcall
  rw [← hadd] at h hperm
  rw [stringKey_eq hnul] at hperm
  refine ⟨h, h.distinct, fun hfalse => ?_, fun _ => hperm, h.sound.count⟩
  rw [hcall] at hfalse
  cases hfalse

/-- **A call that meets its condition** survives and keeps the table one of distinct strings: this
is the step of the run. -/
theorem Holds.add (h : s.Holds) (htype : a.type = .string) (hnul : 0 ∉ a.str) (hmeets : s.Meets a) :
    (s.add a).Holds ∧ s.Survives a := by
  obtain ⟨t, str, heap⟩ := a
  obtain rfl : t = .string := htype
  rcases addKey_cases h heap str with
    ⟨-, -, hcall⟩ | ⟨hnew, ⟨-, s', hcall, hsound, hpos, hperm⟩ |
      ⟨⟨halloc, hgrows⟩, s', hcall, hsound, hpos, hperm⟩⟩
  · exact survives_false h (.refl _) hcall
  · exact survives_false (h.perm hsound hpos hperm) hperm hcall
  · have hmem : stringKey str ∉ s.stored := by
      rcases hmeets with hprobe | hkey | hmem | ⟨hfull, htable⟩
      · exact hnew hprobe
      · rw [halloc] at hkey
        cases hkey
      · exact hmem
      · rw [hgrows hfull] at htable
        cases htable
    exact survives_true (h.cons hsound hpos hperm hmem) hnul hperm hcall

/-- **One call** on a table of distinct strings survives its failures exactly if it meets its
condition. -/
theorem survives_iff (h : s.Holds) (htype : a.type = .string) (hnul : 0 ∉ a.str) :
    s.Survives a ↔ s.Meets a := by
  refine ⟨fun hsurvives => ?_, fun hmeets => (h.add htype hnul hmeets).2⟩
  obtain ⟨t, str, heap⟩ := a
  obtain rfl : t = .string := htype
  rcases addKey_cases h heap str with
    ⟨hprobe, -, -⟩ | ⟨-, ⟨hno, -⟩ | ⟨-, s', hcall, -, -, hperm⟩⟩
  · exact .inl hprobe
  · rcases hno with hkey | hfull
    · exact .inr (.inl hkey)
    · exact .inr (.inr (.inr hfull))
  · -- the key was added, so it was not there
    refine .inr (.inr (.inl fun hmem => ?_))
    have hadd : s.add ⟨.string, str, heap⟩ = s' := congrArg Prod.snd hcall
    have hdistinct := hsurvives.distinct
    rw [hadd] at hdistinct
    have hstr : ∀ k ∈ s'.stored, ∃ str, k = stringKey str := by
      intro k hk
      rcases List.mem_cons.mp (hperm.mem_iff.mp hk) with rfl | hk
      · exact ⟨str, rfl⟩
      · exact h.strings k hk
    have hnodup := hperm.nodup_iff.mp ((distinct_iff hstr).mp hdistinct)
    exact (List.nodup_cons.mp hnodup).1 hmem

/-- A new set holds it. -/
theorem new_holds : new.Holds where
  sound := new_sound
  pos := Nat.succ_pos 4
  strings := by simp [stored_new]
  nodup := by simp [stored_new]

/-- **`Key_Set` survives the failures of its allocations except for one.** Over any calls of
`Key_Set_add_key` with strings on a new set, whatever their allocations do, every call keeps the set
as it should exactly when every call meets its condition. The one is that of the key which
`Key_Set_has_key` makes: it takes the refusal for a key that is not there, and the caller stores
that key once more. -/
theorem failures_iff (adds : List Add) (hadds : ∀ a ∈ adds, a.type = .string ∧ 0 ∉ a.str) :
    Runs.Along add Survives new adds ↔ Runs.Along add Meets new adds :=
  Runs.along_congr (D := fun _ a => a.type = .string ∧ 0 ∉ a.str) new_holds
    (Runs.along_of_forall fun _ => hadds) (fun _ _ h ha => survives_iff h ha.1 ha.2)
    fun _ _ h ha hmeets => (h.add ha.1 ha.2 hmeets).1

/-- A string that is added twice, and one that is new and not looked for. -/
theorem failures_example :
    Runs.Along add Survives new
        [⟨.string, [0x61], {}⟩, ⟨.string, [0x61], {}⟩, ⟨.string, [0x62], { probe := false }⟩] ↔
      Runs.Along add Meets new
        [⟨.string, [0x61], {}⟩, ⟨.string, [0x61], {}⟩, ⟨.string, [0x62], { probe := false }⟩] :=
  failures_iff
    [⟨.string, [0x61], {}⟩, ⟨.string, [0x61], {}⟩, ⟨.string, [0x62], { probe := false }⟩]
    (by decide)

/-- The second search finds no memory, and the string is stored twice. -/
theorem failures_twice :
    ¬ Runs.Along add Survives new
        [⟨.string, [0x61], {}⟩, ⟨.string, [0x61], { probe := false }⟩] := by
  rintro ⟨-, ⟨hdistinct, -, -, -⟩, -⟩
  exact absurd hdistinct (by decide +kernel)

end

end KeySet

end Eltn
