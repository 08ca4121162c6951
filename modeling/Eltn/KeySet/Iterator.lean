import Eltn.KeySet.Numbers
import Eltn.Lib.Runs
import Eltn.Pool.Construct

/-!
# Iterators over a key set

An iterator copies the keys of its set when it is created, and `Key_Set_Iterator_next` moves an
index over the copies, from `-1` on and without an end. `iterator_enumerates` says what the calls
give, whatever is added to the set between them; `string_inside_iff` says when
`Key_Set_Iterator_string` stays inside the array, since its guard lets the index be `-1` and the
length as well.
-/

namespace Eltn

/-- `ELTN_new_string` (`ealloc.c:122`), when its allocation succeeds: the block and the length. -/
def newString (srcstr : Bytes) (srclen : Nat) : Bytes × Nat := (srcstr.take srclen ++ [0], srclen)

namespace KeySetIterator

/-- `keys[index]`; nothing is defined outside of the array. -/
def key (self : KeySetIterator) : Option Key :=
  if 0 ≤ self.index then (self.keys.getD [])[self.index.toNat]? else none

/-- `Key_Set_Iterator_next` (`ekeyset.c:317`). -/
def next (self : KeySetIterator) : Option KeyType × KeySetIterator :=
  let self := { self with index := self.index + 1 }
  if self.index ≥ self.length then (some .empty, self) else (self.key.map (·.type), self)

/-- The guard of `Key_Set_Iterator_string`; `wanted` says that neither pointer is `NULL`. -/
def reads (wanted : Bool) (self : KeySetIterator) : Bool := self.index ≤ self.length && wanted

/-- `Key_Set_Iterator_string` (`ekeyset.c:325`): what it writes, if it writes. -/
def string (wanted : Bool) (self : KeySetIterator) : Option (Option (Bytes × Nat)) :=
  if self.reads wanted then self.key.map fun p => some (newString p.str p.len) else some none

end KeySetIterator

/-- A key set with an iterator over it. -/
structure Session where
  set : KeySet
  iter : KeySetIterator

/-- A call on one of them: a key is added to the set, or the iterator goes on or gives its string,
whose length may be wanted. -/
inductive SessionCall where
  | add (a : KeySet.Add)
  | next
  | string (wanted : Bool)
deriving DecidableEq, Repr

namespace Session

/-- The state behind a call. Adding a key does not touch the iterator, whose copies are its own. -/
def step (s : Session) : SessionCall → Session
  | .add a => { s with set := (s.set.addKey a.heap a.type a.str).2 }
  | .next => { s with iter := s.iter.next.2 }
  | .string _ => s

/-- The number of calls of `Key_Set_Iterator_next`. -/
def nexts (calls : List SessionCall) : Nat := calls.count .next

/-- `Key_Set_Iterator_string` (`ekeyset.c:325`) reads `keys[index]` inside the array only; the other
calls read no key of the iterator. -/
def Inside (s : Session) : SessionCall → Prop
  | .add _ => True
  | .next => True
  | .string wanted => s.iter.reads wanted = true → 0 ≤ s.iter.index ∧ s.iter.index < s.iter.length

end Session

/-- The type and the text of a key. -/
def Key.entry (k : Key) : KeyType × Bytes := (k.type, k.str)

/-- What the next call on an iterator gives, behind `n` calls of `Key_Set_Iterator_next`, where it
enumerates the types and texts of some keys: the type of the next one, or `KEY_SET_EMPTY` behind
them, and the text of the last one. -/
structure KeySetIterator.At (self : KeySetIterator) (entries : List (KeyType × Bytes)) (n : Nat) :
    Prop where
  next : self.next.1 = some (entries[n]?.elim .empty (·.1))
  string : ∀ e, n ≠ 0 → entries[n - 1]? = some e →
    self.string true = some (some (e.2 ++ [0], e.2.length))

/-- The calls of `Key_Set_add_key` that returned `true`, which are those that stored a key. -/
def KeySet.added : List KeySet.Add → KeySet → List KeySet.Add
  | [], _ => []
  | a :: adds, s =>
    (if (s.addKey a.heap a.type a.str).1 then [a] else []) ++
      added adds (s.addKey a.heap a.type a.str).2

section
variable {after : Nat → Bytes} {h h' : Pool} {self : KeySetObject} {iter : KeySetIterator}
  {s : Session} {call : SessionCall} {calls : List SessionCall}

/-! ## The index -/

/-- `Key_Set_Iterator_next` moves the index on, whether it has passed the end or not. -/
theorem KeySetIterator.next_snd (self : KeySetIterator) :
    self.next.2 = { self with index := self.index + 1 } := by
  rw [next]
  split <;> rfl

/-- Only `Key_Set_Iterator_next` changes the iterator, whatever is added to its set. So the keys it
enumerates are those of the set when it was made. -/
theorem Session.iter_run (s : Session) (calls : List SessionCall) :
    (Runs.run step s calls).iter = { s.iter with index := s.iter.index + nexts calls } := by
  induction calls generalizing s with
  | nil => simp [nexts]
  | cons call calls ih =>
    rw [Runs.run_cons, ih, nexts, nexts]
    cases call with
    | add a => simp [step]
    | string wanted => simp [step]
    | next =>
      simp only [step, KeySetIterator.next_snd, List.count_cons_self]
      congr 1
      push_cast
      omega

/-- A new iterator stands before its first key, and is as long as the set. -/
theorem KeySetObject.iterator_fresh (hiter : self.iterator after h = some (some iter, h')) :
    iter.index = -1 ∧ iter.length = self.set.nitems := by
  unfold iterator at hiter
  dsimp only at hiter
  split at hiter
  · cases hiter
  split at hiter
  · cases hiter
  split at hiter
  · cases hiter
    exact ⟨rfl, rfl⟩
  · obtain ⟨_, -, hnull⟩ := Option.map_eq_some_iff.mp hiter
    cases hnull

/-- **`Key_Set_Iterator_string` stays inside the array** exactly where every call of it that can
write has a number of calls of `Key_Set_Iterator_next` before it that is neither zero nor the number
of keys and one. The guard lets the index be `-1` and the number of keys. -/
theorem string_inside_iff (hiter : self.iterator after h = some (some iter, h'))
    (calls : List SessionCall) :
    Runs.Along Session.step Session.Inside ⟨self.set, iter⟩ calls ↔
      ∀ k, calls[k]? = some (.string true) →
        Session.nexts (calls.take k) ≠ 0 ∧
          Session.nexts (calls.take k) ≠ self.set.nitems + 1 := by
  obtain ⟨hindex, hlength⟩ := KeySetObject.iterator_fresh hiter
  rw [Runs.along_iff]
  have hcall (k : Nat) (wanted : Bool) :
      Session.Inside (Runs.run Session.step ⟨self.set, iter⟩ (calls.take k)) (.string wanted) ↔
        (wanted = true → Session.nexts (calls.take k) ≠ 0 ∧
          Session.nexts (calls.take k) ≠ self.set.nitems + 1) := by
    rw [Session.Inside, Session.iter_run]
    simp only [KeySetIterator.reads, hindex, hlength, Bool.and_eq_true, decide_eq_true_eq]
    generalize Session.nexts (calls.take k) = n
    constructor
    · intro hinside hwanted
      by_contra hno
      have hrange := hinside ⟨by omega, hwanted⟩
      omega
    · rintro hn ⟨hle, hwanted⟩
      have hne := hn hwanted
      omega
  constructor
  · intro h k hk
    exact (hcall k true).mp (h k _ hk) rfl
  · intro h k c hk
    cases c with
    | add a => trivial
    | next => trivial
    | string wanted =>
      refine (hcall k wanted).mpr fun hwanted => h k ?_
      rw [hk, hwanted]

/-- On a set with the key `foo`, a call of `Key_Set_Iterator_string` at the key, which reads it, and
one far behind it, which does not. -/
theorem string_inside_example :
    ∃ iter h', (⟨some tableMinsiz, (KeySet.addAll [⟨.string, ascii "foo", {}⟩] .new).2⟩ :
        KeySetObject).iterator (fun _ => []) { grants := fun _ => true } = some (some iter, h') ∧
      Runs.Along Session.step Session.Inside
        ⟨(KeySet.addAll [⟨.string, ascii "foo", {}⟩] .new).2, iter⟩
        [.next, .string true, .next, .next, .string true] ∧
      iter.next.2.string true = some (some (ascii "foo" ++ [0], 3)) := by
  let copy : Key := { type := .string, str := ascii "foo", len := 3 }
  obtain ⟨h', hiter⟩ : ∃ h', (⟨some tableMinsiz, (KeySet.addAll [⟨.string, ascii "foo", {}⟩]
      .new).2⟩ : KeySetObject).iterator (fun _ => []) { grants := fun _ => true } =
        some (some { length := 1, keys := some [copy] }, h') := ⟨_, rfl⟩
  refine ⟨_, h', hiter, (string_inside_iff hiter _).mpr ?_, by decide⟩
  rintro (_ | _ | _ | _ | _ | k) hk
  · cases hk
  · decide +kernel
  · cases hk
  · cases hk
  · decide +kernel
  · cases hk

/-- `Key_Set_Iterator_string` before the first call of `Key_Set_Iterator_next` reads `keys[-1]`. -/
theorem string_reads_before :
    ∃ iter h', (⟨some tableMinsiz, .new⟩ : KeySetObject).iterator (fun _ => [])
        { grants := fun _ => true } = some (some iter, h') ∧
      ¬ Runs.Along Session.step Session.Inside ⟨.new, iter⟩ [.string true] := by
  refine ⟨_, _, rfl, ?_⟩
  rintro ⟨hinside, -⟩
  exact absurd (hinside rfl).1 (by decide)

/-! ## The copies -/

/-- A copy of a key without zero bytes has its type, its text and its length. -/
theorem IsCopy.entry_eq {p value : Key} (hcopy : IsCopy p value) (hnul : 0 ∉ p.str) :
    value.entry = p.entry ∧ value.len = value.str.length := by
  obtain ⟨behind, hvalue⟩ := hcopy
  have hmade := Option.some.inj hvalue
  have hstr : value.str = p.str := by
    rw [← hmade]
    exact strncpy_length hnul
  have htype : value.type = p.type := by rw [← hmade]
  refine ⟨by rw [Key.entry, htype, hstr]; rfl, ?_⟩
  rw [hstr, ← hmade]

/-- The copies of keys without zero bytes have their types and texts, and their lengths. -/
theorem entries_of_copies {ps copies : List Key} (hcopies : List.Forall₂ IsCopy ps copies)
    (hnul : ∀ p ∈ ps, 0 ∉ p.str) :
    copies.map Key.entry = ps.map Key.entry ∧ ∀ p ∈ copies, p.len = p.str.length := by
  induction hcopies with
  | nil => exact ⟨rfl, fun p hp => absurd hp List.not_mem_nil⟩
  | cons hcopy _ ih =>
    obtain ⟨hp, hps⟩ := List.forall_mem_cons.mp hnul
    obtain ⟨hentry, hlen⟩ := hcopy.entry_eq hp
    obtain ⟨hentries, hlens⟩ := ih hps
    rw [List.map_cons, List.map_cons, hentry, hentries]
    exact ⟨rfl, List.forall_mem_cons.mpr ⟨hlen, hlens⟩⟩

/-- **The iterator of a set** of keys without zero bytes has their copies, in the order of the
table, when all of its requests are granted. -/
theorem KeySetObject.iterator_complete (after : Nat → Bytes) (hsound : self.set.Sound)
    (hnul : ∀ p ∈ self.set.stored, 0 ∉ p.str) (hgrants : h.Grants (2 + self.set.nitems)) :
    ∃ keys : List Key, self.iterator after h =
        some (some { length := self.set.nitems, keys := some keys },
          h.taken 1 (2 + self.set.nitems)) ∧
      keys.map Key.entry = self.set.stored.map Key.entry ∧ ∀ p ∈ keys, p.len = p.str.length := by
  obtain ⟨keys, hiter, hcopies⟩ := self.iterator_copies after hsound hgrants
  exact ⟨keys, hiter, entries_of_copies hcopies hnul⟩

/-! ## The keys added -/

/-- The calls that have added a key are among the calls. -/
theorem added_subset {adds : List KeySet.Add} {set : KeySet} {a : KeySet.Add}
    (ha : a ∈ KeySet.added adds set) : a ∈ adds := by
  induction adds generalizing set with
  | nil => exact ha
  | cons b adds ih =>
    rcases List.mem_append.mp ha with ha | ha
    · split at ha
      · exact List.mem_cons.mpr (.inl (List.mem_singleton.mp ha))
      · cases ha
    · exact List.mem_cons_of_mem b (ih ha)

/-- **The keys of a set** are those that the calls returning `true` have added, in whatever order
the table has them. By induction on the calls, each of which stores its key or leaves the set as it
is (`addKey_spec`). -/
theorem addAll_entries {set : KeySet} {adds : List KeySet.Add} (hsound : set.Sound)
    (hlight : set.Light) (hadds : ∀ a ∈ adds, a.heap.Allocates ∧ 0 ∉ a.str) :
    ((KeySet.addAll adds set).2.stored.map Key.entry).Perm
      ((KeySet.added adds set).map (fun a => (a.type, a.str)) ++ set.stored.map Key.entry) := by
  induction adds generalizing set with
  | nil => exact .refl _
  | cons a adds ih =>
    obtain ⟨⟨halloc, hnul⟩, htail⟩ := List.forall_mem_cons.mp hadds
    rw [KeySet.addAll_cons, KeySet.added]
    have hsame (hcall : set.addKey a.heap a.type a.str = (false, set)) :
        ((KeySet.addAll adds (set.addKey a.heap a.type a.str).2).2.stored.map Key.entry).Perm
          (((if (set.addKey a.heap a.type a.str).1 = true then [a] else []) ++
            KeySet.added adds (set.addKey a.heap a.type a.str).2).map (fun a => (a.type, a.str)) ++
              set.stored.map Key.entry) := by
      rw [hcall]
      exact ih hsound hlight htail
    rcases eq_or_ne a.type .empty with ht | ht
    · exact hsame (by simp [KeySet.addKey, ht])
    obtain ⟨p, hp, htype⟩ := initKey_true a.type a.str a.heap.keyAfter
    have hspec := KeySet.addKey_spec a.type a.str hsound hlight halloc ht hp
    split at hspec
    · exact hsame hspec
    · obtain ⟨s', hs', hsound', hlight', hperm⟩ := hspec
      have hentry : p.entry = (a.type, a.str) := by
        have hstr : p.str = strncpy a.str a.str.length := by
          rw [← Option.some.inj hp]
        rw [Key.entry, htype, hstr, strncpy_length hnul]
      have hrest := (hperm.map Key.entry).append_left
        ((KeySet.added adds s').map fun a => (a.type, a.str))
      rw [List.map_cons, hentry] at hrest
      rw [hs', if_pos rfl, List.singleton_append, List.map_cons]
      exact (ih hsound' hlight' htail).trans (hrest.trans List.perm_middle)

/-- The copies of an iterator behind `n` calls of `Key_Set_Iterator_next`: it is at the copy before
the `n`-th, or behind the last. -/
theorem at_index {keys : List Key} {length : Nat} (hlength : keys.length = length)
    (hlens : ∀ p ∈ keys, p.len = p.str.length) (n : Nat) :
    KeySetIterator.At { index := -1 + n, length := length, keys := some keys }
      (keys.map Key.entry) n := by
  subst hlength
  have hkey (i : Nat) (length : Nat) :
      KeySetIterator.key { index := i, length := length, keys := some keys } = keys[i]? := by
    rw [KeySetIterator.key, if_pos (Int.natCast_nonneg i)]
    rfl
  constructor
  · have hnext : (-1 + n + 1 : Int) = n := by omega
    rw [KeySetIterator.next, List.getElem?_map]
    simp only [hnext, hkey]
    split
    · next hend => rw [List.getElem?_eq_none (by omega)]; rfl
    · next hmore =>
      rw [List.getElem?_eq_getElem (by omega)]
      rfl
  · intro e hn he
    obtain ⟨p, hp, rfl⟩ := Option.map_eq_some_iff.mp ((List.getElem?_map ..).symm.trans he)
    have hlt := (List.getElem?_eq_some_iff.mp hp).1
    have hlast : (-1 + n : Int) = (n - 1 : Nat) := by omega
    have hlen := hlens p (List.mem_of_getElem? hp)
    have hreads : (((n - 1 : Nat) : Int) ≤ keys.length && true) = true := by
      rw [Bool.and_true, decide_eq_true_eq]
      omega
    rw [KeySetIterator.string, KeySetIterator.reads, hlast, if_pos hreads, hkey, hp,
      Option.map_some, newString, hlen, List.take_length]
    rfl

/-- **An iterator enumerates a snapshot.** After any calls of `Key_Set_add_key` with keys without a
zero byte, `Key_Set_iterator` gives an iterator over the types and texts of the keys stored, each
of them once, which are those added. Whatever is added to the set afterwards, the calls of
`Key_Set_Iterator_next` give the types in one order, and then `KEY_SET_EMPTY` for ever, and those
of `Key_Set_Iterator_string` the text of the key that the last of them was at. -/
theorem iterator_enumerates (adds : List KeySet.Add) (array : Ptr) (after : Nat → Bytes)
    (hadds : ∀ a ∈ adds, a.heap.Allocates ∧ 0 ∉ a.str)
    (hgrants : h.Grants (2 + (KeySet.addAll adds .new).2.nitems)) :
    ∃ iter h', (⟨array, (KeySet.addAll adds .new).2⟩ : KeySetObject).iterator after h =
        some (some iter, h') ∧
      ∃ entries : List (KeyType × Bytes),
        entries.Perm ((KeySet.addAll adds .new).2.stored.map Key.entry) ∧
        entries.Perm ((KeySet.added adds .new).map fun a => (a.type, a.str)) ∧
        (∀ e ∈ entries, e.1 ≠ .empty) ∧
        ∀ calls : List SessionCall,
          (Runs.run Session.step ⟨(KeySet.addAll adds .new).2, iter⟩ calls).iter.At entries
            (Session.nexts calls) := by
  have hkeeps := KeySet.addAll_keeps KeySet.new_sound KeySet.new_light fun a ha => (hadds a ha).1
  have hentries := addAll_entries KeySet.new_sound KeySet.new_light hadds
  rw [KeySet.stored_new, List.map_nil, List.append_nil] at hentries
  generalize (KeySet.addAll adds .new).2 = set at hkeeps hentries hgrants ⊢
  have hnul : ∀ p ∈ set.stored, 0 ∉ p.str := by
    intro p hp
    obtain ⟨a, ha, heq⟩ := List.mem_map.mp (hentries.mem_iff.mp (List.mem_map_of_mem hp))
    have hstr : a.str = p.str := congrArg Prod.snd heq
    rw [← hstr]
    exact (hadds a (added_subset ha)).2
  obtain ⟨keys, hiter, hkeys, hlens⟩ :=
    (⟨array, set⟩ : KeySetObject).iterator_complete after hkeeps.sound hnul hgrants
  have hlength : keys.length = set.nitems := by
    rw [hkeeps.sound.count, ← List.length_map (f := Key.entry), hkeys, List.length_map]
  refine ⟨_, _, hiter, keys.map Key.entry, hkeys ▸ .refl _, hkeys ▸ hentries, ?_, fun calls => ?_⟩
  · rw [hkeys]
    intro e he
    obtain ⟨p, hp, rfl⟩ := List.mem_map.mp he
    simpa [Key.used, Key.entry] using (KeySet.mem_stored.mp hp).2
  · rw [Session.iter_run]
    exact at_index hlength hlens _

/-- A string and a number, enumerated one after the other. -/
theorem iterator_enumerates_two :
    ∃ iter h',
      (⟨some tableMinsiz, (KeySet.addAll [⟨.string, ascii "foo", {}⟩, ⟨.number, ascii "1", {}⟩]
          .new).2⟩ : KeySetObject).iterator (fun _ => []) { grants := fun _ => true } =
        some (some iter, h') ∧
      ∃ entries : List (KeyType × Bytes),
        entries.Perm ((KeySet.addAll [⟨.string, ascii "foo", {}⟩, ⟨.number, ascii "1", {}⟩]
          .new).2.stored.map Key.entry) ∧
        entries.Perm ((KeySet.added [⟨.string, ascii "foo", {}⟩, ⟨.number, ascii "1", {}⟩]
          .new).map fun a => (a.type, a.str)) ∧
        (∀ e ∈ entries, e.1 ≠ .empty) ∧
        ∀ calls : List SessionCall,
          (Runs.run Session.step ⟨(KeySet.addAll
              [⟨.string, ascii "foo", {}⟩, ⟨.number, ascii "1", {}⟩] .new).2, iter⟩ calls).iter.At
            entries (Session.nexts calls) :=
  iterator_enumerates [⟨.string, ascii "foo", {}⟩, ⟨.number, ascii "1", {}⟩] (some tableMinsiz)
    (fun _ => []) (by decide) (fun _ _ => rfl)

end

end Eltn
