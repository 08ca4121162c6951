import Mathlib.Data.Finset.Card
import Eltn.KeySet.Values

/-!
# A key set is a finite set

`Represents s S`: the table `s` holds one key for each value in `S`. Adding a key to the table and
inserting its value into the set (`insertNew`) keep it so, and `has_key` is membership;
`refines_set` says it of every sequence of calls.
-/

namespace Eltn

/-! ## Finite sets -/

section
variable {α : Type*} [DecidableEq α] {v : α} {vs : List α} {S : Finset α}

/-- Insert a value, and tell whether it is new. -/
def insertNew (v : α) (S : Finset α) : Bool × Finset α := (decide (v ∉ S), insert v S)

/-- Insert values one after the other, and tell of each whether it is new to the set that it comes
to. -/
def insertAll : List α → Finset α → List Bool × Finset α
  | [], S => ([], S)
  | v :: vs, S =>
    let first := insertNew v S
    let rest := insertAll vs first.2
    (first.1 :: rest.1, rest.2)

/-- What the abstract set holds behind some insertions. -/
theorem insertAll_set : (insertAll vs S).2 = S ∪ vs.toFinset := by
  induction vs generalizing S with
  | nil => simp [insertAll]
  | cons v vs ih => simp [insertAll, insertNew, ih]

/-- A value is new if neither the set nor an earlier value is it. This is what the calls on a new
set return. -/
theorem insertAll_new (i : Nat) :
    (insertAll vs S).1[i]? = vs[i]?.map fun v => decide (v ∉ S ∧ v ∉ vs.take i) := by
  induction vs generalizing S i with
  | nil => simp [insertAll]
  | cons v vs ih =>
    cases i with
    | zero => simp [insertAll, insertNew]
    | succ i =>
      simp only [insertAll, List.getElem?_cons_succ, ih, insertNew, Finset.mem_insert,
        List.take_succ_cons, List.mem_cons]
      congr 1
      funext w
      rw [decide_eq_decide]
      tauto

end

namespace KeySet

/-- The table holds one key for each value of the set, and only keys of plain values; it is sound,
and light enough to have an empty slot. -/
structure Represents (s : KeySet) (S : Finset KeyValue) : Prop where
  sound : s.Sound
  light : s.Light
  plain : ∀ k ∈ s.stored, k.Plain
  nodup : (s.stored.map Key.value).Nodup
  values : (s.stored.map Key.value).toFinset = S

/-- The value of the key that is added. -/
def Add.value (a : Add) : KeyValue := keyValue a.type a.str

/-- A call with a string or a number of plain value, both times read as far as the bytes passed
go, whose allocations succeed. -/
structure Add.Regular (a : Add) : Prop where
  allocates : a.heap.Allocates
  key : a.type ≠ .empty
  plain : a.value.Plain
  probe : ReadsExactly a.type a.str a.heap.probeAfter
  reads : ReadsExactly a.type a.str a.heap.keyAfter

instance : DecidablePred Add.Regular := fun a =>
  decidable_of_iff (a.heap.Allocates ∧ a.type ≠ .empty ∧ a.value.Plain ∧
      ReadsExactly a.type a.str a.heap.probeAfter ∧ ReadsExactly a.type a.str a.heap.keyAfter)
    ⟨fun ⟨h1, h2, h3, h4, h5⟩ => ⟨h1, h2, h3, h4, h5⟩,
      fun h => ⟨h.allocates, h.key, h.plain, h.probe, h.reads⟩⟩

section
variable {s : KeySet} {S : Finset KeyValue} {t : KeyType} {str after : Bytes} {a : Add}

/-- A new set stands for the empty set. -/
theorem new_represents : new.Represents ∅ where
  sound := new_sound
  light := new_light
  plain := by simp [stored_new]
  nodup := by simp [stored_new]
  values := by simp [stored_new]

/-- The number of keys is that of the elements. -/
theorem Represents.size_eq (h : s.Represents S) : s.size = S.card := by
  rw [size, h.sound.count, ← h.values, List.toFinset_card_of_nodup h.nodup, List.length_map]

/-- **`Key_Set_has_key` is membership**, for keys whose bytes are read as what they are. -/
theorem Represents.hasKey_iff (h : s.Represents S) (ht : t ≠ .empty)
    (hread : ReadsExactly t str after) :
    s.hasKey true t str after = true ↔ keyValue t str ∈ S := by
  obtain ⟨p, hp, -⟩ := initKey_true t str after
  rw [KeySet.hasKey_iff h.sound (Nat.zero_lt_of_lt h.light.room) hp, ← h.values]
  simp only [List.mem_toFinset, List.mem_map]
  constructor
  · rintro ⟨-, k, hk, heq⟩
    exact ⟨k, hk, ((isEqual_iff hp ht hread (h.plain k hk)).mp heq).symm⟩
  · rintro ⟨k, hk, hval⟩
    have heq := (isEqual_iff hp ht hread (h.plain k hk)).mpr hval.symm
    have hhash := hashvalue_eq_of_isEqual hp ht hread (h.plain k hk) heq
    exact ⟨hhash ▸ h.sound.homeUsed hk, k, hk, heq⟩

/-- **`Key_Set_add_key` is insertion**: it tells whether the value is new, and leaves a table for
the set with it. -/
theorem Represents.addKey (h : s.Represents S) (ha : a.Regular) :
    (s.addKey a.heap a.type a.str).1 = (insertNew a.value S).1 ∧
      (s.addKey a.heap a.type a.str).2.Represents (insertNew a.value S).2 := by
  obtain ⟨p, hp, -⟩ := initKey_true a.type a.str a.heap.keyAfter
  have hspec := addKey_spec a.type a.str h.sound h.light ha.allocates ha.key hp
  have hmem := h.hasKey_iff ha.key ha.probe
  split at hspec
  · next hfound =>
    have hin : a.value ∈ S := hmem.mp hfound
    rw [hspec, insertNew, Finset.insert_eq_of_mem hin]
    exact ⟨by simp [hin], h⟩
  · next hfound =>
    have hout : a.value ∉ S := fun hin => hfound (hmem.mpr hin)
    obtain ⟨s', hs', hsound, hlight, hperm⟩ := hspec
    obtain ⟨hplain, hval⟩ := initKey_plain hp ha.key ha.reads ha.plain
    have hvalues : (s'.stored.map Key.value).Perm (a.value :: s.stored.map Key.value) := by
      have := hperm.map Key.value
      rwa [List.map_cons, hval] at this
    rw [hs', insertNew]
    refine ⟨by simp [hout], hsound, hlight, ?_, ?_, ?_⟩
    · intro k hk
      rcases List.mem_cons.mp (hperm.mem_iff.mp hk) with rfl | hk
      · exact hplain
      · exact h.plain k hk
    · refine hvalues.nodup_iff.mpr (List.nodup_cons.mpr ⟨?_, h.nodup⟩)
      rwa [← h.values, List.mem_toFinset] at hout
    · rw [List.toFinset_eq_of_perm _ _ hvalues, List.toFinset_cons, h.values]

/-- The calls of a sequence are the insertions of the values. By induction on the calls, with
`Represents.addKey` as the step. -/
theorem Represents.addAll {adds : List Add} (h : s.Represents S) (hadds : ∀ a ∈ adds, a.Regular) :
    (addAll adds s).1 = (insertAll (adds.map Add.value) S).1 ∧
      (addAll adds s).2.Represents (insertAll (adds.map Add.value) S).2 := by
  induction adds generalizing s S with
  | nil => exact ⟨rfl, h⟩
  | cons a adds ih =>
    obtain ⟨ha, htail⟩ := List.forall_mem_cons.mp hadds
    obtain ⟨hfirst, hnext⟩ := h.addKey ha
    obtain ⟨hrest, hlast⟩ := ih hnext htail
    refine ⟨?_, hlast⟩
    simp only [KeySet.addAll, List.map_cons, insertAll, hfirst, hrest]

/-- **A key set is the set of the values added to it.** In a sequence of calls on a new set, a call
returns true iff no earlier one was for its value. Afterwards the keys found are those of the
values added, and the size is their number, which is below the capacity. -/
theorem refines_set (adds : List Add) (hadds : ∀ a ∈ adds, a.Regular) :
    (∀ i, (addAll adds new).1[i]? =
        adds[i]?.map fun a => decide (∀ b ∈ adds.take i, b.value ≠ a.value)) ∧
      (∀ t str after, t ≠ .empty → ReadsExactly t str after →
        ((addAll adds new).2.hasKey true t str after = true ↔
          ∃ a ∈ adds, a.value = keyValue t str)) ∧
      (addAll adds new).2.size = (adds.map Add.value).toFinset.card ∧
      (addAll adds new).2.size < (addAll adds new).2.capacity := by
  obtain ⟨hresults, hset⟩ := new_represents.addAll hadds
  rw [insertAll_set, Finset.empty_union] at hset
  refine ⟨?_, ?_, hset.size_eq, hset.light.room⟩
  · intro i
    rw [hresults, insertAll_new]
    simp [← List.map_take, Option.map_map, Function.comp_def]
  · intro t str after ht hread
    rw [hset.hasKey_iff ht hread]
    simp

/-- The string `16`, and the number in two spellings: the set has two keys, and finds the number in
a third spelling. -/
theorem refines_set_example :
    (addAll [⟨.string, ascii "16", {}⟩, ⟨.number, ascii "16", {}⟩, ⟨.number, ascii "0x10", {}⟩]
        new).2.size = 2 ∧
      (addAll [⟨.string, ascii "16", {}⟩, ⟨.number, ascii "16", {}⟩, ⟨.number, ascii "0x10", {}⟩]
        new).2.hasKey true .number (ascii "1.6e1") [] = true := by
  obtain ⟨-, hkeys, hsize, -⟩ := refines_set [⟨.string, ascii "16", {}⟩,
    ⟨.number, ascii "16", {}⟩, ⟨.number, ascii "0x10", {}⟩] (by decide +kernel)
  refine ⟨hsize.trans (by decide +kernel), ?_⟩
  rw [hkeys .number (ascii "1.6e1") [] nofun fun _ => by decide +kernel]
  decide +kernel

end

end KeySet

end Eltn
