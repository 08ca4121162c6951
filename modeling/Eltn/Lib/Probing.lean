import Mathlib.Data.List.GetD
import Mathlib.Tactic.Common

/-!
# Tables with linear probing

A table is a list of slots; `used` tells the slots that hold an entry from the empty ones, and an
entry's home is its hash modulo the number of slots. `insert` puts an entry into its home or into
the next empty slot; `find` looks at every slot, unless the home slot is empty. An entry is found
as long as no home of an entry is empty (`Homed`), and inserting entries keeps it so.
-/

namespace Probing

/-- The way around `n` slots that starts behind the slot `i`: the first slot on it where `stop`
holds, unless the way comes back to `orig` first. -/
def search (n orig : Nat) (stop : Nat → Bool) : Nat → Nat → Option Nat
  | 0, _ => none
  | fuel + 1, i =>
    let j := (i + 1) % n
    if stop j then some j else if j = orig then none else search n orig stop fuel j

/-- The same way, as a program takes it: the last slot it looks at. A slot outside the table has no
result, nor has a way that does not end. -/
def walk (n orig : Nat) (stop : Nat → Bool) : Nat → Nat → Option Nat
  | 0, _ => none
  | fuel + 1, i =>
    let j := (i + 1) % n
    if n ≤ j then none else if stop j ∨ j = orig then some j else walk n orig stop fuel j

section
variable {n orig fuel i j : Nat} {stop : Nat → Bool}

/-- A slot that is found is one of the table and stops the search. What it is looked for by does not
matter. -/
theorem search_some (h : search n orig stop fuel i = some j) (hn : 0 < n) :
    j < n ∧ stop j = true := by
  induction fuel generalizing i with
  | zero => cases h
  | succ fuel ih =>
    rw [search] at h
    split at h
    · next hstop =>
      cases h
      exact ⟨Nat.mod_lt _ hn, hstop⟩
    split at h
    · cases h
    · exact ih h

/-- Where the search from the `k`-th slot behind `orig` finds nothing, it has looked at all slots up
to `orig`. By induction on the fuel: a turn looks at the next slot, and it is the last one where it
comes back to `orig`. -/
theorem search_none_from {k : Nat} (horig : orig < n) (hk : k < n) (hfuel : n ≤ k + fuel)
    (h : search n orig stop fuel ((orig + k) % n) = none) :
    ∀ m, k < m → m ≤ n → stop ((orig + m) % n) = false := by
  induction fuel generalizing k with
  | zero => omega
  | succ fuel ih =>
    intro m hkm hm
    have hnext : ((orig + k) % n + 1) % n = (orig + (k + 1)) % n := by
      rw [Nat.mod_add_mod, Nat.add_assoc]
    rw [search, hnext] at h
    split at h
    · cases h
    next hstop =>
    have hstop : stop ((orig + (k + 1)) % n) = false := by simpa using hstop
    split at h
    · -- back at `orig`: the slot was the last one
      next hback =>
      have hlast : k + 1 = n := by
        by_contra hne
        rcases Nat.lt_or_ge (orig + (k + 1)) n with hlt | hge
        · rw [Nat.mod_eq_of_lt hlt] at hback
          omega
        · rw [Nat.mod_eq_sub_mod hge, Nat.mod_eq_of_lt (by omega)] at hback
          omega
      obtain rfl : m = k + 1 := by omega
      exact hstop
    · next hback =>
      have hlast : k + 1 ≠ n := by
        rintro rfl
        rw [Nat.add_mod_right, Nat.mod_eq_of_lt horig] at hback
        exact hback rfl
      rcases Nat.lt_or_ge (k + 1) m with hlt | hge
      · exact ih (by omega) (by omega) h m hlt hm
      · obtain rfl : m = k + 1 := by omega
        exact hstop

/-- From the `k`-th slot behind `orig` the program is back at `orig` in time, or has found the slot
of the search before. -/
theorem walk_from {k : Nat} (horig : orig < n) (hk : k < n) (hfuel : n ≤ k + fuel) :
    walk n orig stop fuel ((orig + k) % n) =
      some ((search n orig stop fuel ((orig + k) % n)).getD orig) := by
  induction fuel generalizing k with
  | zero => omega
  | succ fuel ih =>
    have hnext : ((orig + k) % n + 1) % n = (orig + (k + 1)) % n := by
      rw [Nat.mod_add_mod, Nat.add_assoc]
    have hin : ¬ n ≤ (orig + (k + 1)) % n :=
      Nat.not_le.mpr (Nat.mod_lt _ (Nat.zero_lt_of_lt horig))
    rw [walk, search, hnext, if_neg hin]
    cases hstop : stop ((orig + (k + 1)) % n) with
    | true => rw [if_pos (.inl rfl), if_pos rfl, Option.getD_some]
    | false =>
      rw [if_neg Bool.false_ne_true]
      rcases eq_or_ne ((orig + (k + 1)) % n) orig with hback | hback
      · rw [if_pos (.inr hback), if_pos hback, hback, Option.getD_none]
      · have hlast : k + 1 ≠ n := by
          rintro rfl
          rw [Nat.add_mod_right, Nat.mod_eq_of_lt horig] at hback
          exact hback rfl
        rw [if_neg hback, if_neg (not_or.mpr ⟨Bool.false_ne_true, hback⟩)]
        exact ih (by omega) (by omega)

/-- **The way around the table ends**, in the table: at the slot that the search finds, or at the
one where it started. -/
theorem walk_eq (horig : orig < n) :
    walk n orig stop n orig = some ((search n orig stop n orig).getD orig) := by
  have hfrom : walk n orig stop n ((orig + 0) % n) = _ :=
    walk_from horig (Nat.zero_lt_of_lt horig) (Nat.le_add_left n 0)
  rwa [Nat.add_zero, Nat.mod_eq_of_lt horig] at hfrom

/-- A search around the whole table that finds nothing has looked at every slot. -/
theorem search_none (horig : orig < n) (h : search n orig stop n orig = none) (hj : j < n) :
    stop j = false := by
  have hfrom : search n orig stop n ((orig + 0) % n) = none := by
    rwa [Nat.add_zero, Nat.mod_eq_of_lt horig]
  have hall := search_none_from horig (Nat.zero_lt_of_lt horig) (Nat.le_add_left n 0) hfrom
  rcases Nat.lt_or_ge orig j with hlt | hge
  · have := hall (j - orig) (by omega) (by omega)
    rwa [Nat.add_sub_of_le (Nat.le_of_lt hlt), Nat.mod_eq_of_lt hj] at this
  · have := hall (j + n - orig) (by omega) (by omega)
    rwa [show orig + (j + n - orig) = j + n by omega, Nat.add_mod_right,
      Nat.mod_eq_of_lt hj] at this

end

section
variable {α : Type*} (used : α → Bool) (hash : α → Nat) (blank : α)

/-- Put an entry into its home or into the next empty slot behind it, if there is one. The table is
looked at once around, from behind the home on. -/
def insert (x : α) (table : List α) : Option (List α) :=
  let original := hash x % table.length
  if used (table.getD original blank) then
    (search table.length original (fun i => !used (table.getD i blank)) table.length original).map
      (table.set · x)
  else some (table.set original x)

/-- Look for an entry with `p` from the slot `original` on, unless that slot is empty. An empty slot
further on does not end the search. -/
def find (p : α → Bool) (original : Nat) (table : List α) : Bool :=
  let op := table.getD original blank
  if !used op then false
  else if p op then true
  else (search table.length original (fun i => p (table.getD i blank)) table.length original).isSome

/-- The entries of a table. -/
def entries (table : List α) : List α := table.filter used

/-- No home of an entry is empty. -/
def Homed (table : List α) : Prop :=
  ∀ x ∈ table, used x → used (table.getD (hash x % table.length) blank)

variable {used hash blank} {x : α} {p : α → Bool} {table : List α} {i original : Nat}

/-- A slot of a table in which one slot was set. -/
theorem getD_set (hi : i < table.length) (j : Nat) :
    (table.set i x).getD j blank = if j = i then x else table.getD j blank := by
  rw [List.getD_eq_getElem?_getD, List.getElem?_set, List.getD_eq_getElem?_getD]
  by_cases hij : i = j
  · subst hij
    simp [hi]
  · rw [if_neg hij, if_neg (Ne.symm hij)]

/-- An entry put into an empty slot joins the others, which stay as they are; their order in the
table does not count. -/
theorem entries_set (hi : i < table.length) (hfree : used (table.getD i blank) = false)
    (hx : used x = true) : (entries used (table.set i x)).Perm (x :: entries used table) := by
  induction table generalizing i with
  | nil => cases hi
  | cons y table ih =>
    cases i with
    | zero =>
      have hy : used y = false := hfree
      rw [List.set_cons_zero, entries, entries, List.filter_cons_of_pos hx,
        List.filter_cons_of_neg (by simp [hy])]
    | succ i =>
      have ih := ih (Nat.lt_of_succ_lt_succ hi) hfree
      rw [List.set_cons_succ, entries, entries, List.filter_cons, List.filter_cons]
      split
      · exact (ih.cons y).trans (.swap x y _)
      · exact ih

/-- A table with fewer entries than slots has an empty slot. The entries are those slots that are in
use. -/
theorem exists_free (h : (entries used table).length < table.length) :
    ∃ i < table.length, used (table.getD i blank) = false := by
  induction table with
  | nil => cases h
  | cons y table ih =>
    cases hy : used y with
    | false => exact ⟨0, Nat.succ_pos _, hy⟩
    | true =>
      rw [entries, List.filter_cons_of_pos hy, List.length_cons, List.length_cons] at h
      obtain ⟨i, hi, hfree⟩ := ih (Nat.lt_of_succ_lt_succ h)
      exact ⟨i + 1, Nat.succ_lt_succ hi, hfree⟩

/-- An entry is put into an empty slot, and no home that was in use gets empty. -/
theorem Homed.set (h : Homed used hash blank table) (hi : i < table.length) (hx : used x = true)
    (hhome : used (table.getD (hash x % table.length) blank) ∨ i = hash x % table.length) :
    Homed used hash blank (table.set i x) := by
  intro y hy hused
  rw [List.length_set, getD_set hi]
  split
  · exact hx
  next hne =>
  rcases List.mem_or_eq_of_mem_set hy with hy | rfl
  · exact h y hy hused
  · exact hhome.resolve_right (Ne.symm hne)

/-- What an insertion that finds a slot makes of the table: no longer than before, with every home
still in use and the entry among the others. -/
theorem insert_some {table' : List α} (h : Homed used hash blank table) (hx : used x = true)
    (hpos : 0 < table.length) (hinsert : insert used hash blank x table = some table') :
    table'.length = table.length ∧ Homed used hash blank table' ∧
      (entries used table').Perm (x :: entries used table) := by
  have hlt : hash x % table.length < table.length := Nat.mod_lt _ hpos
  unfold insert at hinsert
  dsimp only at hinsert
  split at hinsert
  · next hhome =>
    obtain ⟨i, hsearch, rfl⟩ := Option.map_eq_some_iff.mp hinsert
    obtain ⟨hi, hfree⟩ := search_some hsearch hpos
    have hfree : used (table.getD i blank) = false := by simpa using hfree
    exact ⟨List.length_set, h.set hi hx (.inl hhome), entries_set hi hfree hx⟩
  · next hhome =>
    have hfree : used (table.getD (hash x % table.length) blank) = false := by simpa using hhome
    cases hinsert
    exact ⟨List.length_set, h.set hlt hx (.inr rfl), entries_set hlt hfree hx⟩

/-- To insert an entry adds no other. -/
theorem mem_insert {table' : List α} {y : α}
    (hinsert : insert used hash blank x table = some table') (hy : y ∈ table') :
    y ∈ table ∨ y = x := by
  unfold insert at hinsert
  dsimp only at hinsert
  split at hinsert
  · obtain ⟨i, -, rfl⟩ := Option.map_eq_some_iff.mp hinsert
    exact List.mem_or_eq_of_mem_set hy
  · cases hinsert
    exact List.mem_or_eq_of_mem_set hy

/-- An insertion finds a slot unless the table is full: the search comes by every slot before it
gives up. -/
theorem exists_insert (x : α) (hroom : (entries used table).length < table.length) :
    ∃ table', insert used hash blank x table = some table' := by
  have hlt : hash x % table.length < table.length := Nat.mod_lt _ (Nat.zero_lt_of_lt hroom)
  unfold insert
  dsimp only
  split
  · cases hsearch : search table.length (hash x % table.length)
        (fun i => !used (table.getD i blank)) table.length (hash x % table.length) with
    | none =>
      obtain ⟨i, hi, hfree⟩ := exists_free hroom
      have := search_none hlt hsearch hi
      rw [hfree] at this
      cases this
    | some i => exact ⟨_, rfl⟩
  · exact ⟨_, rfl⟩

/-- An insertion into a full table finds none, since the home is in use and so is every slot that
the search comes by. -/
theorem insert_full (hpos : 0 < table.length)
    (hfull : (entries used table).length = table.length) :
    insert used hash blank x table = none := by
  have hused : ∀ i < table.length, used (table.getD i blank) = true := by
    intro i hi
    rw [List.getD_eq_getElem _ _ hi]
    exact List.length_filter_eq_length_iff.mp hfull _ (List.getElem_mem hi)
  unfold insert
  dsimp only
  rw [if_pos (hused _ (Nat.mod_lt _ hpos)), Option.map_eq_none_iff]
  cases hsearch : search table.length (hash x % table.length)
      (fun i => !used (table.getD i blank)) table.length (hash x % table.length) with
  | none => rfl
  | some i =>
    obtain ⟨hi, hfree⟩ := search_some hsearch hpos
    rw [hused i hi] at hfree
    cases hfree

/-- **Inserting into a table that is not full** adds the entry, and keeps homes in use. This is all
that the sets of keys need to know of the search. -/
theorem insert_spec (h : Homed used hash blank table) (hx : used x = true)
    (hroom : (entries used table).length < table.length) :
    ∃ table', insert used hash blank x table = some table' ∧ table'.length = table.length ∧
      Homed used hash blank table' ∧ (entries used table').Perm (x :: entries used table) := by
  obtain ⟨table', hinsert⟩ := exists_insert x hroom
  exact ⟨table', hinsert, insert_some h hx (Nat.zero_lt_of_lt hroom) hinsert⟩

/-- `find` looks at every slot, but only where the one it starts from is in use: it finds what the
whole table has. -/
theorem find_iff (horig : original < table.length) :
    find used blank p original table = true ↔
      used (table.getD original blank) = true ∧ ∃ y ∈ table, p y = true := by
  have hslot : ∀ j < table.length, table.getD j blank ∈ table := by
    intro j hj
    rw [List.getD_eq_getElem _ _ hj]
    exact List.getElem_mem hj
  unfold find
  dsimp only
  split
  · next hfree => exact ⟨nofun, fun h => by rw [h.1] at hfree; cases hfree⟩
  next hused =>
  have hused : used (table.getD original blank) = true := by simpa using hused
  split
  · next hp => exact ⟨fun _ => ⟨hused, _, hslot _ horig, hp⟩, fun _ => rfl⟩
  rw [Option.isSome_iff_exists]
  constructor
  · rintro ⟨j, hj⟩
    obtain ⟨hlt, hp⟩ := search_some hj (Nat.zero_lt_of_lt horig)
    exact ⟨hused, _, hslot j hlt, hp⟩
  · rintro ⟨-, y, hy, hpy⟩
    obtain ⟨j, hj, rfl⟩ := List.getElem_of_mem hy
    by_contra hnone
    have hsearch := Option.eq_none_iff_forall_ne_some.mpr fun i hi => hnone ⟨i, hi⟩
    have := search_none horig hsearch hj
    rw [List.getD_eq_getElem _ _ hj, hpy] at this
    cases this

end

section
variable {α β : Type*} {used : α → Bool} {hash : α → Nat} {used' : β → Bool} {hash' : β → Nat}
  {f : α → β}

/-- Entries that carry more than is looked at are put into the same slots. So a table with values
beside its keys can be compared with one of the keys alone. -/
theorem insert_map (hused : ∀ x, used' (f x) = used x) (hhash : ∀ x, hash' (f x) = hash x)
    (blank x : α) (table : List α) :
    insert used' hash' (f blank) (f x) (table.map f) =
      (insert used hash blank x table).map (List.map f) := by
  simp only [insert, List.length_map, hhash, List.getD_map, hused]
  split
  · rw [Option.map_map]
    congr 1
    funext i
    exact (List.map_set ..).symm
  · rw [Option.map_some, List.map_set]

/-- To look for an entry in a table whose entries are mapped is to look for one that is mapped to
it, if empty slots stay empty. -/
theorem find_map (hused : ∀ x, used' (f x) = used x) (blank : α) (p : β → Bool) (original : Nat)
    (table : List α) :
    find used' (f blank) p original (table.map f) =
      find used blank (fun x => p (f x)) original table := by
  simp only [find, List.length_map, List.getD_map, hused]

/-- The entries of such a table are the mapped entries. -/
theorem entries_map (hused : ∀ x, used' (f x) = used x) (table : List α) :
    entries used' (table.map f) = (entries used table).map f := by
  rw [entries, List.filter_map, entries]
  congr 1
  exact List.filter_congr fun x _ => hused x

end

end Probing
