import Eltn.KeySet.Basic

/-!
# The table of a key set

`KeySet.Sound` is the invariant of the table: its keys are counted and no key's own slot is empty.
Each function of the table is described by what it does to the list of the stored keys, up to
their order; `hasKey_iff` is the test that the rest of the development reads.
-/

namespace Eltn

/-- No key is equal to an empty slot. -/
theorem isEqual_used {a b : Key} (h : isEqual a b = true) : b.used = true := by
  unfold isEqual at h
  split at h
  · cases h
  next htype =>
  have htype : a.type = b.type := by simpa using htype
  cases hb : b.type with
  | empty =>
    rw [htype, hb] at h
    cases h
  | string | number => simp [Key.used, hb]

/-- Where its allocation succeeds `init_key` makes a key of the type that it was given. -/
theorem initKey_true (t : KeyType) (str after : Bytes) :
    ∃ value, initKey true t str after = some value ∧ value.type = t := ⟨_, rfl, rfl⟩

namespace KeySet

/-- The keys stored. -/
def stored (s : KeySet) : List Key := Probing.entries Key.used s.array

/-- The slot that keys of this hash try first holds a key. -/
def HomeUsed (s : KeySet) (hash : Nat) : Prop :=
  Key.used (s.array.getD (hash % s.arraysize) {}) = true

/-- The recorded sizes are those of the table, and no key's own slot is empty, which is what lets a
lookup stop there. -/
structure Sound (s : KeySet) : Prop where
  length : s.array.length = s.arraysize
  count : s.nitems = s.stored.length
  homed : Probing.Homed Key.used hashvalue {} s.array

/-- The table is below its load limit. -/
def Light (s : KeySet) : Prop := 20 * s.nitems < 13 * s.arraysize

/-- All allocations of the call succeed. -/
def Heap.Allocates (heap : Heap) : Prop :=
  heap.probe = true ∧ heap.table = true ∧ heap.key = true

instance (heap : Heap) : Decidable heap.Allocates := inferInstanceAs (Decidable (_ ∧ _))

section
variable {s : KeySet} {p value : Key} {t : KeyType} {str after : Bytes}

/-- What is stored are the keys of the array that are used. -/
theorem mem_stored : p ∈ s.stored ↔ p ∈ s.array ∧ p.used = true := List.mem_filter

/-- The slot that a stored key tries first is never empty: the key is in it, or probed on from it.
-/
theorem Sound.homeUsed (h : s.Sound) (hp : p ∈ s.stored) : s.HomeUsed (hashvalue p) := by
  have := h.homed p (mem_stored.mp hp).1 (mem_stored.mp hp).2
  rwa [h.length] at this

/-- A table below its load limit has a free slot, where every probe ends. -/
theorem Light.room (h : s.Light) : s.nitems < s.arraysize := by
  unfold Light at h
  omega

/-- Nothing is stored in a new array. -/
theorem stored_replicate {n m : Nat} :
    stored { nitems := n, arraysize := m, array := List.replicate m {} } = [] :=
  List.filter_eq_nil_iff.mpr fun p hp => by simp [List.eq_of_mem_replicate hp, Key.used]

/-- A zeroed table. -/
theorem sound_replicate (n : Nat) :
    Sound { nitems := 0, arraysize := n, array := List.replicate n {} } where
  length := List.length_replicate
  count := by rw [stored_replicate, List.length_nil]
  homed := by
    intro p hp hused
    rw [List.eq_of_mem_replicate hp] at hused
    cases hused

/-- A new set is sound: its array is empty and counted as such. -/
theorem new_sound : new.Sound := sound_replicate tableMinsiz

/-- A new set is below its load limit. -/
theorem new_light : new.Light := by simp [Light, new, tableMinsiz]

/-- A new set holds no keys. -/
theorem stored_new : new.stored = [] := stored_replicate

/-- **`add_key`** stores a key wherever there is room for one, next to the keys that are there. -/
theorem addKeyEntry_spec (h : s.Sound) (hp : p.used = true) (hroom : s.nitems < s.arraysize) :
    ∃ s', addKeyEntry p s = (true, s') ∧ s'.Sound ∧ s'.arraysize = s.arraysize ∧
      s'.nitems = s.nitems + 1 ∧ s'.stored.Perm (p :: s.stored) := by
  have hentries : (Probing.entries Key.used s.array).length < s.array.length := by
    rw [h.length]
    exact h.count ▸ hroom
  obtain ⟨array, hinsert, hlen, hhomed, hperm⟩ := Probing.insert_spec h.homed hp hentries
  refine ⟨{ s with array := array, nitems := s.nitems + 1 }, ?_, ?_, rfl, rfl, hperm⟩
  · rw [addKeyEntry, hinsert]
  · exact ⟨hlen.trans h.length, by rw [h.count]; exact hperm.length_eq.symm, hhomed⟩

/-- A list of keys stored one after the other, where there is room for all of them. By induction on
the list. -/
theorem foldl_addKeyEntry {ps : List Key} (h : s.Sound) (hps : ∀ p ∈ ps, p.used = true)
    (hroom : s.nitems + ps.length ≤ s.arraysize) :
    (ps.foldl (fun s p => (addKeyEntry p s).2) s).Sound ∧
      (ps.foldl (fun s p => (addKeyEntry p s).2) s).arraysize = s.arraysize ∧
      (ps.foldl (fun s p => (addKeyEntry p s).2) s).stored.Perm (ps ++ s.stored) := by
  induction ps generalizing s with
  | nil => exact ⟨h, rfl, .refl _⟩
  | cons p ps ih =>
    rw [List.length_cons] at hroom
    obtain ⟨s', hs', hsound, hsize, hitems, hperm⟩ :=
      addKeyEntry_spec h (hps p List.mem_cons_self) (by omega)
    rw [List.foldl_cons, hs']
    obtain ⟨hsound', hsize', hperm'⟩ :=
      ih hsound (fun q hq => hps q (List.mem_cons_of_mem p hq)) (by omega)
    refine ⟨hsound', hsize'.trans hsize, hperm'.trans ?_⟩
    exact (hperm.append_left ps).trans List.perm_middle

/-- **`resize`** keeps the keys, in a table of twice the size and one. -/
theorem resize_spec (h : s.Sound) (hroom : s.nitems ≤ s.arraysize) :
    (s.resize true).Sound ∧ (s.resize true).arraysize = s.arraysize * 2 + 1 ∧
      (s.resize true).stored.Perm s.stored := by
  have hcount := h.count
  have hused : ∀ p ∈ s.stored, p.used = true := fun p hp => (mem_stored.mp hp).2
  have hfold := foldl_addKeyEntry (sound_replicate (s.arraysize * 2 + 1)) hused
    (show 0 + s.stored.length ≤ s.arraysize * 2 + 1 by omega)
  rwa [stored_replicate, List.append_nil] at hfold

/-- **`Key_Set_has_key`** finds a key unless its own slot is empty: some stored key is equal to it,
wherever that is in the table. -/
theorem hasKey_iff (h : s.Sound) (hpos : 0 < s.arraysize)
    (hvalue : initKey true t str after = some value) :
    s.hasKey true t str after = true ↔
      s.HomeUsed (hashvalue value) ∧ ∃ q ∈ s.stored, isEqual value q = true := by
  have hlt : hashvalue value % s.arraysize < s.array.length := by
    rw [h.length]
    exact Nat.mod_lt _ hpos
  rw [hasKey, hvalue]
  refine (Probing.find_iff hlt).trans (and_congr_right fun _ => exists_congr fun q => ?_)
  constructor
  · rintro ⟨hq, heq⟩
    exact ⟨mem_stored.mpr ⟨hq, isEqual_used heq⟩, heq⟩
  · rintro ⟨hq, heq⟩
    exact ⟨(mem_stored.mp hq).1, heq⟩

/-- **`Key_Set_add_key`** leaves the set alone where the key is found, and otherwise stores it. The
table is grown before it could be full, so that there is room. The load of `crowded` keeps more than
a third of the slots free, with the key that is added. -/
theorem addKey_spec (t : KeyType) (str : Bytes) {heap : Heap} (h : s.Sound) (hlight : s.Light)
    (hheap : heap.Allocates) (ht : t ≠ .empty)
    (hvalue : initKey true t str heap.keyAfter = some value) :
    if s.hasKey true t str heap.probeAfter = true then s.addKey heap t str = (false, s)
    else ∃ s', s.addKey heap t str = (true, s') ∧ s'.Sound ∧ s'.Light ∧
      s'.stored.Perm (value :: s.stored) := by
  obtain ⟨hprobe, htable, hkey⟩ := hheap
  unfold addKey
  rw [hprobe, htable, hkey, hvalue]
  split
  · next hfound => rw [if_pos (by simp [hfound])]
  next hfound =>
  rw [if_neg (by simp [hfound, ht])]
  have hused : value.used = true := by
    obtain rfl : value.type = t := by
      obtain ⟨_, hinit, htype⟩ := initKey_true t str heap.keyAfter
      rw [hvalue] at hinit
      cases hinit
      exact htype
    simpa [Key.used] using ht
  have hroom := hlight.room
  unfold Light at hlight
  dsimp only
  cases hcrowded : s.crowded with
  | true =>
    obtain ⟨hsound, hsize, hperm⟩ := resize_spec h hroom.le
    have hitems : (s.resize true).nitems = s.nitems := by
      rw [hsound.count, h.count, hperm.length_eq]
    obtain ⟨s', hs', hsound', hsize', hitems', hperm'⟩ :=
      addKeyEntry_spec hsound hused (by omega)
    exact ⟨s', hs', hsound', by unfold Light; omega, hperm'.trans (hperm.cons value)⟩
  | false =>
    have hcrowded : 20 * (s.nitems + 1) < 13 * s.arraysize := by simpa [crowded] using hcrowded
    obtain ⟨s', hs', hsound', hsize', hitems', hperm'⟩ := addKeyEntry_spec h hused hroom
    exact ⟨s', hs', hsound', by unfold Light; omega, hperm'⟩

/-- A key that is stored, or not for want of room, keeps the table sound. The keys that were there
stay where they are. -/
theorem addKeyEntry_sound (h : s.Sound) (hp : p.used = true) (hpos : 0 < s.arraysize) :
    (addKeyEntry p s).2.Sound ∧ (addKeyEntry p s).2.arraysize = s.arraysize := by
  unfold addKeyEntry
  split
  · exact ⟨h, rfl⟩
  · next array hinsert =>
    obtain ⟨hlen, hhomed, hperm⟩ :=
      Probing.insert_some h.homed hp (by rw [h.length]; exact hpos) hinsert
    exact ⟨⟨hlen.trans h.length, by rw [h.count]; exact hperm.length_eq.symm, hhomed⟩, rfl⟩

/-- No more keys are counted than there are slots. -/
theorem Sound.nitems_le (h : s.Sound) : s.nitems ≤ s.arraysize := by
  rw [h.count, ← h.length]
  exact List.length_filter_le _ _

/-- **`Key_Set_add_key` keeps the table sound**, whichever of its allocations fail, also where it
does not grow. -/
theorem addKey_sound (heap : Heap) (t : KeyType) (str : Bytes) (h : s.Sound)
    (hpos : 0 < s.arraysize) :
    (s.addKey heap t str).2.Sound ∧ 0 < (s.addKey heap t str).2.arraysize := by
  unfold addKey
  split
  · exact ⟨h, hpos⟩
  next hnew =>
  have ht : t ≠ .empty := by
    rintro rfl
    exact hnew rfl
  have hsized : (if s.crowded then s.resize heap.table else s).Sound ∧
      0 < (if s.crowded then s.resize heap.table else s).arraysize := by
    split
    · cases heap.table with
      | false => exact ⟨h, hpos⟩
      | true =>
        obtain ⟨hsound, hsize, -⟩ := resize_spec h h.nitems_le
        exact ⟨hsound, by omega⟩
    · exact ⟨h, hpos⟩
  dsimp only
  cases hkey : heap.key with
  | false => exact hsized
  | true =>
    obtain ⟨value, hvalue, htype⟩ := initKey_true t str heap.keyAfter
    have hused : value.used = true := by simpa [Key.used, htype] using ht
    rw [hvalue]
    obtain ⟨hsound, hsize⟩ := addKeyEntry_sound hsized.1 hused hsized.2
    exact ⟨hsound, by rw [hsize]; exact hsized.2⟩

end

end KeySet

end Eltn
