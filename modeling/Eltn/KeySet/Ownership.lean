import Eltn.KeySet.Memory

/-!
# Who owns the blocks of a key set

Between the calls the live blocks are the set, its table, the block of each stored key, and the
blocks that were dropped (`Held`); `addKey_held` is the step and `addAll_held` the run. What
`Key_Set_free` leaves are the dropped blocks.
-/

namespace Eltn

namespace Memory

section
variable {m : Memory} {as : List Nat} {a : Nat}

/-- What calls leave alone: the allocators, and the blocks at the addresses. -/
structure Keeps (as : List Nat) (m m' : Memory) : Prop where
  frame : Frame as m m'
  answers : m'.answers = m.answers

/-- What two calls leave alone both of them leave alone together. -/
theorem Keeps.trans {m' m'' : Memory} (h : Keeps as m m') (h' : Keeps as m' m'') :
    Keeps as m m'' :=
  ⟨h.frame.trans h'.frame, h'.answers.trans h.answers⟩

/-- Calls that leave some blocks alone leave fewer of them alone. -/
theorem Keeps.mono {m' : Memory} {cs : List Nat} (h : Keeps as m m') (hsub : cs ⊆ as) :
    Keeps cs m m' :=
  ⟨h.frame.mono hsub, h.answers⟩

/-- The bytes of a block that is left alone are what they were. -/
theorem Keeps.bytes_eq {m' : Memory} (h : Keeps as m m') (ha : a ∈ as) :
    m'.bytes (some a) = m.bytes (some a) := by
  rw [bytes, bytes, Option.bind_some, Option.bind_some, h.frame.agree a ha]

/-- A block that is owned can be read. -/
theorem bytes_owned (howns : m.heap.Owns as) (ha : a ∈ as) : ∃ b, m.bytes (some a) = some b := by
  obtain ⟨block, hget⟩ := howns.get ha
  exact ⟨block.bytes, by rw [bytes, Option.bind_some, hget, Option.map_some]⟩

/-- A request: a new block, or none where it is refused. What is owned is left alone. -/
theorem alloc_owns (howns : m.heap.Owns as) (size : Nat) :
    (∃ a m', m.alloc size = (some a, m') ∧ m'.heap.Owns (a :: as) ∧ Keeps as m m') ∨
      (∃ o i m', m.answers o i = false ∧ o = m.poolOrigin ∧ m.alloc size = (none, m') ∧
        m'.heap.Owns as ∧ Keeps as m m') := by
  cases hgrant : m.answers m.poolOrigin (m.asked m.poolOrigin) with
  | true =>
    have hrequest := request_granted hgrant (List.replicate size 0)
    obtain ⟨howns', hagree⟩ := howns.alloc ⟨m.poolOrigin, List.replicate size 0⟩
    exact .inl ⟨_, _, hrequest, howns', ⟨rfl, hagree⟩, rfl⟩
  | false =>
    exact .inr ⟨_, _, _, hgrant, rfl, request_refused hgrant _, howns, ⟨rfl, fun _ _ => rfl⟩, rfl⟩

/-- A block is freed, and the others that are owned are left alone. -/
theorem free_owns (howns : m.heap.Owns (a :: as)) :
    ∃ m', m.free (some a) = some m' ∧ m'.heap.Owns as ∧ Keeps as m m' := by
  obtain ⟨block, hget⟩ := howns.get List.mem_cons_self
  obtain ⟨heap, hfree, howns', hagree⟩ := howns.free
  refine ⟨{ m.hand block with heap := heap }, ?_, howns', ⟨?_, hagree⟩, ?_⟩
  · rw [Memory.free, hget, Option.bind_eq_bind, Option.bind_some, hfree]
    rfl
  · exact (hand_frame [] block m).custom
  · rw [hand]
    split <;> rfl

/-- A store to a block changes its bytes, and nothing of the others that are owned. -/
theorem store_owns (howns : m.heap.Owns (a :: as)) (b : Bytes) :
    ∃ m', m.store a b = some m' ∧ m'.heap.Owns (a :: as) ∧ m'.bytes (some a) = some b ∧
      Keeps as m m' := by
  obtain ⟨block, hget⟩ := howns.get List.mem_cons_self
  obtain ⟨heap, hset, howns', hself, hother⟩ :=
    howns.set List.mem_cons_self { block with bytes := b }
  refine ⟨{ m with heap := heap }, ?_, howns', ?_, ⟨rfl, fun c hc => hother c ?_⟩, rfl⟩
  · rw [Memory.store, hget, Option.bind_eq_bind, Option.bind_some, hset]
    rfl
  · rw [bytes, Option.bind_some, hself, Option.map_some]
  · rintro rfl
    exact (List.nodup_cons.mp howns.nodup).1 hc

end

end Memory

namespace HeapKeySet

/-- The stored keys, with their blocks. -/
def entries (q : HeapKeySet) : List Slot := Probing.entries Slot.used q.slots

/-- The blocks of the stored keys. -/
def strs (q : HeapKeySet) : List Nat := q.entries.filterMap (·.2)

/-- The slot holds a key, and its block the bytes of the key. -/
def Stores (m : Memory) (p : Slot) : Prop :=
  p.used = true ∧ ∃ a, p.2 = some a ∧ m.bytes (some a) = some p.1.str

/-- What holds of a set without a pool between the calls; a function that is at work owns `more`
blocks. -/
structure Held (more : List Nat) (q : HeapKeySet) : Prop where
  custom : q.memory.custom = false
  owns : q.memory.heap.Owns (q.self :: (q.array.toList ++ (more ++ (q.strs ++ q.dropped))))
  array : ∃ a, q.array = some a
  length : q.slots.length = q.arraysize
  count : q.nitems = q.entries.length
  pos : 0 < q.arraysize
  homed : Probing.Homed Slot.used Slot.hash Slot.blank q.slots
  stores : ∀ p ∈ q.entries, Stores q.memory p
  blank : ∀ p ∈ q.slots, p.used = false → p.2 = none

section
variable {q : HeapKeySet} {more : List Nat} {p : Slot} {a : Nat} {m : Memory}

/-- The memory changes, but not the blocks of the set; `more'` are the blocks in hand besides. -/
theorem Held.withMemory {more' : List Nat} (h : Held more q)
    (howns : m.heap.Owns (q.self :: (q.array.toList ++ (more' ++ (q.strs ++ q.dropped)))))
    (hkeeps : Memory.Keeps q.strs q.memory m) : Held more' { q with memory := m } where
  custom := hkeeps.frame.custom.trans h.custom
  owns := howns
  array := h.array
  length := h.length
  count := h.count
  pos := h.pos
  homed := h.homed
  stores p hp := by
    obtain ⟨hused, a, ha, hbytes⟩ := h.stores p hp
    have hmem : a ∈ q.strs := List.mem_filterMap.mpr ⟨p, hp, ha⟩
    exact ⟨hused, a, ha, (hkeeps.bytes_eq hmem).trans hbytes⟩
  blank := h.blank

/-- A new table stores no keys. -/
theorem entries_blank (n : Nat) :
    Probing.entries Slot.used (List.replicate n Slot.blank) = [] :=
  List.filter_eq_nil_iff.mpr fun p hp => by rw [List.eq_of_mem_replicate hp]; decide

/-- A set with a zeroed table holds no key, and owns what it has besides. Each condition on the keys
holds because there is none. -/
theorem held_blank (hcustom : q.memory.custom = false)
    (howns : q.memory.heap.Owns (q.self :: (q.array.toList ++ (more ++ q.dropped))))
    (harray : ∃ a, q.array = some a) (hslots : q.slots = List.replicate q.arraysize Slot.blank)
    (hitems : q.nitems = 0) (hpos : 0 < q.arraysize) : q.entries = [] ∧ Held more q := by
  have hentries : q.entries = [] := by rw [HeapKeySet.entries, hslots, entries_blank]
  have hslot : ∀ p ∈ q.slots, p = Slot.blank := by
    rw [hslots]
    exact fun p => List.eq_of_mem_replicate
  refine ⟨hentries, hcustom, ?_, harray, ?_, ?_, hpos, ?_, ?_, ?_⟩
  · rw [strs, hentries]
    exact howns
  · rw [hslots, List.length_replicate]
  · rw [hitems, hentries, List.length_nil]
  · intro p hp hused
    rw [hslot p hp] at hused
    cases hused
  · rw [hentries]
    exact fun p hp => by cases hp
  · intro p hp _
    rw [hslot p hp]
    rfl

/-- **A key is put into the table** with its block, or dropped where the table is full. A table that
has room drops nothing. Whether there is a free slot is the answer of `Probing.insert`; the key's
block goes from the front of the owned blocks to the ones the table holds, or to the dropped ones.
-/
theorem addKeyEntry_held (h : Held (a :: more) q) (hp : Stores q.memory p) (ha : p.2 = some a) :
    Held more (addKeyEntry p q).2 ∧ (addKeyEntry p q).2.memory = q.memory ∧
      (addKeyEntry p q).2.arraysize = q.arraysize ∧
      (q.entries.length < q.arraysize → (addKeyEntry p q).2.dropped = q.dropped ∧
        (addKeyEntry p q).2.entries.length = q.entries.length + 1) := by
  have hroom : q.entries.length < q.arraysize → ∃ slots,
      Probing.insert Slot.used Slot.hash Slot.blank p q.slots = some slots :=
    fun hlt => Probing.exists_insert p (by rw [h.length]; exact hlt)
  rw [addKeyEntry]
  cases hinsert : Probing.insert Slot.used Slot.hash Slot.blank p q.slots with
  | none =>
    refine ⟨{ h with owns := ?_ }, rfl, rfl, fun hlt => ?_⟩
    · have hperm : (a :: more ++ (q.strs ++ q.dropped)).Perm (more ++ (q.strs ++ a :: q.dropped)) :=
        (List.perm_middle.symm.trans ((List.perm_middle.symm).append_left more))
      have howns := h.owns.perm ((hperm.append_left q.array.toList).cons q.self)
      rw [ha]
      exact howns
    · obtain ⟨slots, hslots⟩ := hroom hlt
      rw [hinsert] at hslots
      cases hslots
  | some slots =>
    obtain ⟨hlen, hhomed, hperm⟩ :=
      Probing.insert_some h.homed hp.1 (by rw [h.length]; exact h.pos) hinsert
    have hstrs : (slots.filter Slot.used |>.filterMap (·.2)).Perm (a :: q.strs) := by
      refine (hperm.filterMap _).trans ?_
      rw [List.filterMap_cons_some ha]
      exact .refl _
    refine ⟨⟨h.custom, ?_, h.array, ?_, ?_, h.pos, hhomed, ?_, ?_⟩, rfl, rfl, fun _ => ⟨rfl, ?_⟩⟩
    · have hmove : (a :: more ++ (q.strs ++ q.dropped)).Perm
          (more ++ ((slots.filter Slot.used |>.filterMap (·.2)) ++ q.dropped)) :=
        List.perm_middle.symm.trans ((hstrs.symm.append_right q.dropped).append_left more)
      exact h.owns.perm ((hmove.append_left q.array.toList).cons q.self)
    · exact hlen.trans h.length
    · exact (congrArg (· + 1) h.count).trans hperm.length_eq.symm
    · intro y hy
      rcases List.mem_cons.mp (hperm.mem_iff.mp hy) with rfl | hy
      · exact hp
      · exact h.stores y hy
    · intro y hy hused
      rcases Probing.mem_insert hinsert hy with hy | rfl
      · exact h.blank y hy hused
      · rw [hp.1] at hused
        cases hused
    · exact hperm.length_eq

/-! ## The calls -/

/-- A block that a function owns, in front of those of the set. -/
theorem perm_front (self a : Nat) (array rest : List Nat) :
    (self :: (array ++ a :: rest)).Perm (a :: self :: (array ++ rest)) :=
  (List.perm_middle.cons self).trans (.swap a self _)

/-- The blocks of the stored keys are among those that the set accounts for. -/
theorem strs_subset (q : HeapKeySet) (more : List Nat) :
    q.strs ⊆ q.self :: (q.array.toList ++ (more ++ (q.strs ++ q.dropped))) := by
  intro a ha
  simp [ha]

/-- `init_key`: a key with a block of its own, or none where the request is refused. The set keeps
its blocks in either case. -/
theorem initKey_held {t : KeyType} (h : Held [] q) (ht : t ≠ .empty) (str after : Bytes) :
    ∃ r m, initKey t str after q.memory = some (r, m) ∧ m.answers = q.memory.answers ∧
      ((r = none ∧ Held [] { q with memory := m }) ∨
        ∃ p a, r = some p ∧ p.2 = some a ∧ Stores m p ∧
          Eltn.initKey true t str after = some p.1 ∧ Held [a] { q with memory := m }) := by
  have hsub := q.strs_subset []
  rcases Memory.alloc_owns h.owns str.length with
    ⟨a, m, halloc, howns, hkeeps⟩ | ⟨-, -, m, -, -, halloc, howns, hkeeps⟩
  · obtain ⟨m', hstore, howns', hbytes, hkeeps'⟩ :=
      Memory.store_owns howns (strncpy str str.length)
    obtain ⟨value, hvalue, htype⟩ := initKey_true t str after
    have hstr : value.str = strncpy str str.length := by
      cases hvalue
      rfl
    have hused : value.used = true := by simp [Key.used, htype, ht]
    refine ⟨some (value, some a), m', ?_, hkeeps'.answers.trans hkeeps.answers,
      .inr ⟨_, a, rfl, rfl, ⟨hused, a, rfl, by rw [hbytes, hstr]⟩, hvalue, ?_⟩⟩
    · rw [initKey, halloc]
      dsimp only
      rw [hstore, hvalue]
      rfl
    · refine h.withMemory (howns'.perm ?_) ((hkeeps.trans hkeeps').mono hsub)
      exact (perm_front q.self a q.array.toList _).symm
  · refine ⟨none, m, ?_, hkeeps.answers, .inl ⟨rfl, h.withMemory howns (hkeeps.mono hsub)⟩⟩
    rw [initKey, halloc]

/-- The table can be read. -/
theorem Held.bytes_array (h : Held more q) : ∃ b, q.memory.bytes q.array = some b := by
  obtain ⟨a, ha⟩ := h.array
  rw [ha]
  exact Memory.bytes_owned h.owns (by simp [ha])

/-- `Key_Set_has_key` leaves the set as it is: the block of the key it makes is freed again, and its
answer is that of the set of the model. -/
theorem hasKey_held {t : KeyType} (h : Held [] q) (ht : t ≠ .empty) (str after : Bytes) :
    ∃ b m, q.hasKey t str after = some (b, { q with memory := m }) ∧
      m.answers = q.memory.answers ∧ Held [] { q with memory := m } ∧
      ∃ probe, q.toKeySet.hasKey probe t str after = b := by
  obtain ⟨r, m, hinit, hanswers, ⟨rfl, hheld⟩ | ⟨p, a, rfl, ha, -, hvalue, hheld⟩⟩ :=
    initKey_held h ht str after
  · refine ⟨false, m, ?_, hanswers, hheld, false, rfl⟩
    rw [hasKey, hinit]
    rfl
  · obtain ⟨b, hbytes⟩ := hheld.bytes_array
    have howns : m.heap.Owns (a :: (q.self :: (q.array.toList ++ ([] ++ (q.strs ++ q.dropped))))) :=
      hheld.owns.perm (perm_front q.self a q.array.toList _)
    obtain ⟨m', hfree, howns', hkeeps⟩ := Memory.free_owns howns
    let found := Probing.find Slot.used Slot.blank (fun s => isEqual p.1 s.1)
      (hashvalue p.1 % q.arraysize) q.slots
    refine ⟨found, m', ?_, hkeeps.answers.trans hanswers,
      hheld.withMemory howns' (hkeeps.mono (q.strs_subset [])), true, ?_⟩
    · rw [hasKey, hinit]
      dsimp only [Option.bind_eq_bind, Option.bind_some] at hbytes ⊢
      rw [hbytes, Option.bind_some, clearKey, ha, hfree]
      rfl
    · rw [KeySet.hasKey, hvalue]
      exact Probing.find_map (fun _ => rfl) Slot.blank (isEqual p.1) _ q.slots

/-- The static `add_key` on the set without its blocks. -/
theorem addKeyEntry_toKeySet (p : Slot) (q : HeapKeySet) : q.toKeySet.addKeyEntry p.1 =
    ((addKeyEntry p q).1, (addKeyEntry p q).2.toKeySet) := by
  have hmap : Probing.insert Key.used hashvalue {} p.1 (q.slots.map (·.1)) =
      (Probing.insert Slot.used Slot.hash Slot.blank p q.slots).map (List.map (·.1)) :=
    Probing.insert_map (fun _ => rfl) (fun _ => rfl) Slot.blank p q.slots
  rw [KeySet.addKeyEntry, addKeyEntry, show q.toKeySet.array = q.slots.map (·.1) from rfl, hmap]
  cases Probing.insert Slot.used Slot.hash Slot.blank p q.slots <;> rfl

/-- To move keys into a table on the heap is to move them in the model: the blocks play no part in
where a key goes. -/
theorem move_toKeySet (ps : List Slot) (q : HeapKeySet) :
    (ps.map (·.1)).foldl (fun s p => (s.addKeyEntry p).2) q.toKeySet =
      (ps.foldl (fun q p => (addKeyEntry p q).2) q).toKeySet := by
  induction ps generalizing q with
  | nil => rfl
  | cons p ps ih =>
    rw [List.map_cons, List.foldl_cons, List.foldl_cons, addKeyEntry_toKeySet]
    exact ih _

/-- Keys that are put into a table with room for them take their blocks with them, and none is
dropped. By induction on the keys. -/
theorem move_held {ps : List Slot} (h : Held (ps.filterMap (·.2) ++ more) q)
    (hps : ∀ p ∈ ps, Stores q.memory p) (hroom : q.entries.length + ps.length ≤ q.arraysize) :
    let r := ps.foldl (fun q p => (addKeyEntry p q).2) q
    Held more r ∧ r.memory = q.memory ∧ r.arraysize = q.arraysize ∧ r.dropped = q.dropped ∧
      r.entries.length = q.entries.length + ps.length := by
  induction ps generalizing q with
  | nil => exact ⟨h, rfl, rfl, rfl, rfl⟩
  | cons p ps ih =>
    obtain ⟨hp, hps⟩ := List.forall_mem_cons.mp hps
    obtain ⟨hused, a, ha, hbytes⟩ := id hp
    rw [List.filterMap_cons_some ha, List.cons_append] at h
    rw [List.length_cons] at hroom
    obtain ⟨hheld, hmemory, hsize, hfits⟩ := addKeyEntry_held h hp ha
    obtain ⟨hdropped, hlen⟩ := hfits (by omega)
    obtain ⟨hheld', hmemory', hsize', hdropped', hlen'⟩ :=
      ih hheld (by rw [hmemory]; exact hps) (by rw [hlen, hsize]; omega)
    refine ⟨hheld', hmemory'.trans hmemory, hsize'.trans hsize, hdropped'.trans hdropped, ?_⟩
    rw [List.foldl_cons, hlen', hlen, List.length_cons]
    omega

/-- `resize` moves all keys, or leaves the table where the request is refused. The old array is
freed, and the set is the one that `resize` of the model gives. The new array is owned beside the
old one while the keys are moved (`move_held`); a refused request leaves the set as it was, with the
refusal counted. -/
theorem resize_held (h : Held [] q) : ∃ q', q.resize = some q' ∧ Held [] q' ∧
    q'.dropped = q.dropped ∧ q'.memory.answers = q.memory.answers ∧
      q'.entries.length = q.entries.length ∧ (∃ table, q.toKeySet.resize table = q'.toKeySet) ∧
      (q'.arraysize = q.arraysize * 2 + 1 ∨
        q'.arraysize = q.arraysize ∧ ∃ i, q.memory.answers .library i = false) := by
  rcases Memory.alloc_owns h.owns ((q.arraysize * 2 + 1) * sizeofKey) with
    ⟨new, m, halloc, howns, hkeeps⟩ | ⟨o, i, m, hrefused, ho, halloc, howns, hkeeps⟩
  · obtain ⟨old, hold⟩ := h.array
    have hlen : q.entries.length ≤ q.arraysize := h.length ▸ List.length_filter_le _ _
    let start : HeapKeySet := { q with
      memory := m, array := some new, arraysize := q.arraysize * 2 + 1, nitems := 0
      slots := List.replicate (q.arraysize * 2 + 1) Slot.blank }
    have hperm : (new :: q.self :: (q.array.toList ++ ([] ++ (q.strs ++ q.dropped)))).Perm
        (q.self :: ([new] ++ (q.entries.filterMap (·.2) ++ [old] ++ q.dropped))) := by
      rw [hold]
      refine (List.Perm.swap _ _ _).trans (.cons _ (.cons _ ?_))
      show ([old] ++ (q.strs ++ q.dropped)).Perm (q.strs ++ [old] ++ q.dropped)
      rw [← List.append_assoc]
      exact List.perm_append_comm.append_right q.dropped
    obtain ⟨hempty, hstart⟩ :
        start.entries = [] ∧ Held (q.entries.filterMap (·.2) ++ [old]) start :=
      held_blank (hkeeps.frame.custom.trans h.custom) (howns.perm hperm) ⟨new, rfl⟩ rfl rfl
        (Nat.succ_pos _)
    have hstores : ∀ p ∈ q.entries, Stores m p := by
      intro p hp
      obtain ⟨hused, a, ha, hbytes⟩ := h.stores p hp
      have hmem : a ∈ q.strs := List.mem_filterMap.mpr ⟨p, hp, ha⟩
      exact ⟨hused, a, ha, (hkeeps.bytes_eq (q.strs_subset [] hmem)).trans hbytes⟩
    have hzero : start.entries.length = 0 := by rw [hempty, List.length_nil]
    obtain ⟨hmoved, hmemory, hsize, hdropped, hcount⟩ :=
      move_held hstart hstores (by rw [hzero]; show _ ≤ q.arraysize * 2 + 1; omega)
    generalize hr : q.entries.foldl (fun q p => (addKeyEntry p q).2) start = r at *
    have howns' : r.memory.heap.Owns
        (old :: (r.self :: (r.array.toList ++ ([] ++ (r.strs ++ r.dropped))))) :=
      hmoved.owns.perm (perm_front r.self old r.array.toList _)
    obtain ⟨m', hfree, howns'', hkeeps'⟩ := Memory.free_owns howns'
    refine ⟨{ r with memory := m' }, ?_,
      hmoved.withMemory howns'' (hkeeps'.mono (r.strs_subset [])), hdropped, ?_, ?_, ⟨true, ?_⟩,
      .inl hsize⟩
    · obtain ⟨b, hbytes⟩ := Memory.bytes_owned howns (a := old) (by simp [hold])
      rw [resize, halloc]
      dsimp only
      rw [hold, hbytes, Option.bind_eq_bind, Option.bind_some]
      have hmove : (r.memory.free (some old)).bind (fun m => some { r with memory := m }) =
          some { r with memory := m' } := by rw [hfree]; rfl
      rw [← hr] at hmove ⊢
      exact hmove
    · rw [hkeeps'.answers, hmemory]
      exact hkeeps.answers
    · show r.entries.length = _
      rw [hcount, hzero, Nat.zero_add]
    · have hfilter : q.toKeySet.array.filter Key.used = q.entries.map (·.1) :=
        Probing.entries_map (fun _ => rfl) q.slots
      have hblank : start.toKeySet.array = List.replicate (q.arraysize * 2 + 1) {} :=
        List.map_replicate
      have hmove := move_toKeySet q.entries start
      rw [hr] at hmove
      rw [KeySet.resize]
      show (q.toKeySet.array.filter Key.used).foldl (fun s p => (s.addKeyEntry p).2)
        { nitems := 0, arraysize := q.arraysize * 2 + 1
          array := List.replicate (q.arraysize * 2 + 1) {} } = r.toKeySet
      rw [hfilter, ← hblank]
      exact hmove
  · have hlibrary : o = .library := by rw [ho, Memory.poolOrigin, h.custom]; rfl
    refine ⟨{ q with memory := m }, ?_, h.withMemory howns (hkeeps.mono (q.strs_subset [])), rfl,
      hkeeps.answers, rfl, ⟨false, rfl⟩, .inr ⟨rfl, i, hlibrary ▸ hrefused⟩⟩
    rw [resize, halloc]

/-- The table is made larger where it is crowded, so that it has room for another key unless a
request was refused. -/
theorem grown_held (h : Held [] q) :
    ∃ q', (if q.toKeySet.crowded then q.resize else some q) = some q' ∧ Held [] q' ∧
      q'.dropped = q.dropped ∧ q'.memory.answers = q.memory.answers ∧
      (∃ table, (if q.toKeySet.crowded then q.toKeySet.resize table else q.toKeySet) =
        q'.toKeySet) ∧
      (q'.entries.length < q'.arraysize ∨ ∃ i, q.memory.answers .library i = false) := by
  have hlen : q.entries.length ≤ q.arraysize := h.length ▸ List.length_filter_le _ _
  cases hcrowded : q.toKeySet.crowded with
  | true =>
    obtain ⟨q', hresize, hheld, hdropped, hanswers, hcount, htable, hsize⟩ := resize_held h
    refine ⟨q', hresize, hheld, hdropped, hanswers, htable,
      hsize.imp (fun hsize => ?_) And.right⟩
    omega
  | false =>
    refine ⟨q, rfl, h, rfl, rfl, ⟨true, rfl⟩, .inl ?_⟩
    have hlight : ¬ 13 * q.arraysize ≤ 20 * (q.nitems + 1) := of_decide_eq_false hcrowded
    rw [h.count] at hlight
    omega

/-- A full table does not take a key. Its block is dropped: nothing points to it any more. -/
theorem addKeyEntry_full (h : Held more q) (hfull : ¬ q.entries.length < q.arraysize)
    (ha : p.2 = some a) :
    addKeyEntry p q = (false, { q with dropped := a :: q.dropped }) ∧
      q.entries.length = q.arraysize := by
  have hlen : q.entries.length ≤ q.arraysize := h.length ▸ List.length_filter_le _ _
  have heq : q.entries.length = q.arraysize := by omega
  have hinsert : Probing.insert Slot.used Slot.hash Slot.blank p q.slots = none :=
    Probing.insert_full (by rw [h.length]; exact h.pos) (heq.trans h.length.symm)
  refine ⟨?_, heq⟩
  rw [addKeyEntry, hinsert, ha]
  rfl

/-- **A call of `Key_Set_add_key`** leaves a set that holds its blocks, does what the call on the
set of the model does, and drops a key only where the table is full behind a refusal. The stages of
the source in turn: the search (`hasKey_held`), the growing (`grown_held`), the key (`initKey_held`)
and its slot (`addKeyEntry_held`). -/
theorem addKey_held (h : Held [] q) (a : AddCall) : ∃ b q', q.addKey a = some (b, q') ∧
    Held [] q' ∧ q'.memory.answers = q.memory.answers ∧
    (∃ heap, q.toKeySet.addKey heap a.type a.str = (b, q'.toKeySet)) ∧
    (q'.dropped = q.dropped ∨ b = false ∧ (∃ c, q'.dropped = c :: q.dropped) ∧
      q'.entries.length = q'.arraysize ∧ ∃ i, q.memory.answers .library i = false) := by
  rw [addKey]
  by_cases htype : a.type = .empty
  · rw [if_pos htype]
    refine ⟨false, q, rfl, h, rfl, ⟨{}, ?_⟩, .inl rfl⟩
    rw [KeySet.addKey, htype]
    rfl
  rw [if_neg htype]
  obtain ⟨known, m, hknown, hanswers, hheld, probe, hprobe⟩ :=
    hasKey_held h htype a.str a.probeAfter
  rw [hknown, Option.bind_eq_bind, Option.bind_some]
  cases known with
  | true =>
    refine ⟨false, _, rfl, hheld, hanswers,
      ⟨{ probe := probe, probeAfter := a.probeAfter }, ?_⟩, .inl rfl⟩
    rw [KeySet.addKey, hprobe, Bool.or_true, if_pos rfl]
    rfl
  | false =>
    dsimp only
    rw [if_neg Bool.false_ne_true]
    obtain ⟨q', hgrown, hheld', hdropped, hanswers', ⟨table, htable⟩, hroom⟩ := grown_held hheld
    rw [hgrown]
    simp only [Option.bind_eq_bind, Option.bind_some]
    -- what the set of the model does, for each answer to the request of the new key
    have hmodel (key : Bool) : q.toKeySet.addKey
        ⟨probe, table, key, a.probeAfter, a.keyAfter⟩ a.type a.str =
          (Eltn.initKey key a.type a.str a.keyAfter).elim (false, q'.toKeySet)
            fun value => q'.toKeySet.addKeyEntry value := by
      rw [KeySet.addKey, hprobe, Bool.or_false, decide_eq_false htype, if_neg Bool.false_ne_true,
        ← htable]
      dsimp only
      cases Eltn.initKey key a.type a.str a.keyAfter <;> rfl
    obtain ⟨r, m', hinit, hanswers'', ⟨rfl, hheld''⟩ | ⟨p, c, rfl, hc, hstores, hvalue, hheld''⟩⟩ :=
      initKey_held hheld' htype a.str a.keyAfter
    · rw [hinit]
      exact ⟨false, _, rfl, hheld'', hanswers''.trans (hanswers'.trans hanswers),
        ⟨_, hmodel false⟩, .inl hdropped⟩
    · obtain ⟨bytes, hbytes⟩ := hheld''.bytes_array
      dsimp only at hbytes
      obtain ⟨hentry, hmemory, -, hfits⟩ := addKeyEntry_held hheld'' hstores hc
      rw [hinit, Option.bind_some]
      dsimp only
      rw [hbytes, Option.bind_some]
      let r := addKeyEntry p { q' with memory := m' }
      refine ⟨r.1, r.2, rfl, hentry, ?_, ⟨_, (hmodel true).trans ?_⟩, ?_⟩
      · rw [show r.2.memory = m' from hmemory]
        exact hanswers''.trans (hanswers'.trans hanswers)
      · rw [hvalue]
        exact addKeyEntry_toKeySet p { q' with memory := m' }
      · by_cases hlt : q'.entries.length < q'.arraysize
        · exact .inl ((hfits hlt).1.trans hdropped)
        · obtain ⟨hfull, heq⟩ := addKeyEntry_full hheld'' hlt hc
          obtain ⟨i, hi⟩ := hroom.resolve_left hlt
          rw [show r = _ from hfull]
          refine .inr ⟨rfl, ⟨c, congrArg (c :: ·) hdropped⟩, heq, i, ?_⟩
          rw [← hanswers]
          exact hi

/-- Slots are freed one after the other, and what is owned besides is left. By induction on the
slots; `free` of a null pointer does nothing. -/
theorem freeSlots_owns {slots : List Slot} {rest : List Nat} (hcustom : m.custom = false)
    (howns : m.heap.Owns (slots.filterMap (·.2) ++ rest)) :
    ∃ m', slots.foldlM (fun m p => m.free p.2) m = some m' ∧ m'.heap.Owns rest ∧
      m'.custom = false := by
  induction slots generalizing m with
  | nil => exact ⟨m, rfl, howns, hcustom⟩
  | cons p slots ih =>
    cases hp : p.2 with
    | none =>
      rw [List.filterMap_cons_none hp] at howns
      obtain ⟨m', hfree, hrest⟩ := ih hcustom howns
      refine ⟨m', ?_, hrest⟩
      have hnone : m.free none = some m := by rw [Memory.free, hcustom]; rfl
      rw [List.foldlM_cons, hp, hnone]
      exact hfree
    | some a =>
      rw [List.filterMap_cons_some hp] at howns
      obtain ⟨m', hfree, howns', hkeeps⟩ := Memory.free_owns howns
      obtain ⟨m'', hfrees, hrest⟩ := ih (hkeeps.frame.custom.trans hcustom) howns'
      refine ⟨m'', ?_, hrest⟩
      rw [List.foldlM_cons, hp, hfree]
      exact hfrees

/-- Empty slots have no blocks, so the blocks of all slots are those of the keys. -/
theorem filterMap_entries {slots : List Slot} (h : ∀ p ∈ slots, p.used = false → p.2 = none) :
    (Probing.entries Slot.used slots).filterMap (·.2) = slots.filterMap (·.2) := by
  induction slots with
  | nil => rfl
  | cons p slots ih =>
    obtain ⟨hp, hslots⟩ := List.forall_mem_cons.mp h
    cases hused : p.used with
    | true =>
      rw [Probing.entries, List.filter_cons_of_pos hused, List.filterMap_cons, List.filterMap_cons]
      rw [← ih hslots]
      rfl
    | false =>
      rw [Probing.entries, List.filter_cons_of_neg (by rw [hused]; exact Bool.false_ne_true),
        List.filterMap_cons_none (hp hused)]
      exact ih hslots

/-- `Key_Set_free` leaves the blocks that were dropped, and no others. -/
theorem free_held (h : Held [] q) : ∃ m, q.free = some m ∧ m.heap.Owns q.dropped := by
  obtain ⟨b, hbytes⟩ := h.bytes_array
  obtain ⟨array, harray⟩ := h.array
  have hstrs : q.strs = q.slots.filterMap (·.2) := filterMap_entries h.blank
  have howns := h.owns
  rw [harray, List.nil_append, hstrs] at howns
  have hperm : (q.self :: ([array] ++ (q.slots.filterMap (·.2) ++ q.dropped))).Perm
      (q.slots.filterMap (·.2) ++ (array :: q.self :: q.dropped)) := by
    show (q.self :: array :: (q.slots.filterMap (·.2) ++ q.dropped)).Perm _
    refine (List.Perm.swap _ _ _).trans ?_
    exact (List.perm_middle.symm.cons array).trans List.perm_middle.symm
  obtain ⟨m, hslots, howns, hcustom⟩ := freeSlots_owns h.custom (howns.perm hperm)
  obtain ⟨m', hfree, howns, -⟩ := Memory.free_owns howns
  obtain ⟨m'', hfree', howns, -⟩ := Memory.free_owns howns
  refine ⟨m'', ?_, howns⟩
  rw [free, hbytes]
  simp only [Option.bind_eq_bind, Option.bind_some, hslots, harray, hfree, hfree']

/-- **Any number of calls** on a set that holds its blocks does what they do on the set of the
model, and nothing is dropped while `malloc` refuses nothing. -/
theorem addAll_held (calls : List AddCall) : ∀ {q : HeapKeySet}, Held [] q →
    ∃ bs q', addAll calls q = some (bs, q') ∧ Held [] q' ∧
      (∃ adds : List KeySet.Add, adds.map (fun a => (a.type, a.str)) =
        calls.map (fun a => (a.type, a.str)) ∧ KeySet.addAll adds q.toKeySet = (bs, q'.toKeySet)) ∧
      ((∀ i, q.memory.answers .library i = true) → q'.dropped = q.dropped) := by
  induction calls with
  | nil => exact fun h => ⟨[], _, rfl, h, ⟨[], rfl, rfl⟩, fun _ => rfl⟩
  | cons a calls ih =>
    intro q h
    obtain ⟨b, q', hcall, hheld, hanswers, ⟨heap, hmodel⟩, hdropped⟩ := addKey_held h a
    obtain ⟨bs, q'', hcalls, hheld', ⟨adds, hadds, hmodels⟩, hkept⟩ := ih hheld
    refine ⟨b :: bs, q'', ?_, hheld', ⟨⟨a.type, a.str, heap⟩ :: adds, ?_, ?_⟩, fun hall => ?_⟩
    · rw [addAll, hcall]
      simp only [Option.bind_eq_bind, Option.bind_some, hcalls]
    · rw [List.map_cons, List.map_cons, hadds]
    · rw [KeySet.addAll, hmodel, hmodels]
    · refine (hkept (by rw [hanswers]; exact hall)).trans (hdropped.resolve_right ?_)
      rintro ⟨-, -, -, i, hi⟩
      rw [hall i] at hi
      cases hi

/-- A new set, where both of its requests are granted, is the empty set of the model and holds its
blocks. -/
theorem new_held {answers : Origin → Nat → Bool} {junk : Nat → UInt8}
    (h : newWithPool (.fresh false answers junk) = (some q, m)) (harray : q.array ≠ none) :
    Held [] q ∧ q.memory.answers = answers ∧ q.dropped = [] ∧ q.toKeySet = .new := by
  rcases Memory.alloc_owns (m := .fresh false answers junk) Heap.owns_empty sizeofKeySet with
    ⟨self, m', halloc, howns, hkeeps⟩ | ⟨-, -, m', -, -, halloc, -, -⟩
  · rw [newWithPool, halloc] at h
    rcases Memory.alloc_owns howns (sizeofKey * tableMinsiz) with
      ⟨array, m'', halloc', howns', hkeeps'⟩ | ⟨-, -, m'', -, -, halloc', -, -⟩
    · dsimp only at h
      rw [halloc'] at h
      cases h
      refine ⟨(held_blank (hkeeps'.frame.custom.trans hkeeps.frame.custom) ?_ ⟨array, rfl⟩ rfl rfl
        (Nat.succ_pos _)).2, hkeeps'.answers.trans hkeeps.answers, rfl, rfl⟩
      exact howns'.perm (.swap self array [])
    · dsimp only at h
      rw [halloc'] at h
      cases h
      exact absurd rfl harray
  · rw [newWithPool, halloc] at h
    cases h

/-- **What a set leaves behind.** Without a pool, and whatever `malloc` refuses after a set has been
made with its table: any number of calls of `Key_Set_add_key` use no block that is not live and free
none twice, they do what the set of the model does, and the block of each key that is stored holds
its bytes. Behind `Key_Set_free` the keys that a full table did not take are left, each with its
block, and nothing else; there are none if `malloc` refuses nothing. -/
theorem free_dropped {answers : Origin → Nat → Bool} {junk : Nat → UInt8}
    (h : newWithPool (.fresh false answers junk) = (some q, m)) (harray : q.array ≠ none)
    (calls : List AddCall) : ∃ bs q' m', addAll calls q = some (bs, q') ∧ q'.free = some m' ∧
      m'.heap.Owns q'.dropped ∧ ((∀ i, answers .library i = true) → q'.dropped = []) ∧
      (∃ adds : List KeySet.Add, adds.map (fun a => (a.type, a.str)) =
        calls.map (fun a => (a.type, a.str)) ∧ KeySet.addAll adds .new = (bs, q'.toKeySet)) ∧
      ∀ p ∈ q'.slots, p.used = true → ∃ a, p.2 = some a ∧
        q'.memory.bytes (some a) = some p.1.str := by
  obtain ⟨hheld, hanswers, hdropped, hnew⟩ := new_held h harray
  obtain ⟨bs, q', hcalls, hheld', hmodel, hkept⟩ := addAll_held calls hheld
  obtain ⟨m', hfree, howns⟩ := free_held hheld'
  rw [hnew] at hmodel
  refine ⟨bs, q', m', hcalls, hfree, howns, fun hall => ?_, hmodel, fun p hp hused => ?_⟩
  · rw [hkept (by rw [hanswers]; exact hall), hdropped]
  · exact (hheld'.stores p (List.mem_filter.mpr ⟨hp, hused⟩)).2

/-- A `malloc` that refuses the tables that a set of six keys asks for. -/
def refusing (_ : Origin) (i : Nat) : Bool := i ∉ [9, 12, 15]

/-- Six calls with different strings. -/
def sixCalls : List AddCall :=
  [⟨.string, [0x61], [], []⟩, ⟨.string, [0x62], [], []⟩, ⟨.string, [0x63], [], []⟩,
    ⟨.string, [0x64], [], []⟩, ⟨.string, [0x65], [], []⟩, ⟨.string, [0x66], [], []⟩]

/-- The sixth key finds the table full, and its block is left. The table could not grow, as its
array was refused. -/
theorem free_dropped_example : ∃ q m bs q' m',
    newWithPool (.fresh false refusing fun _ => 0xFF) = (some q, m) ∧
      addAll sixCalls q = some (bs, q') ∧ q'.free = some m' ∧ m'.heap.Owns q'.dropped ∧
        q'.dropped.length = 1 := by
  have hnew : newWithPool (.fresh false refusing fun _ => 0xFF) = (some _, _) := rfl
  obtain ⟨bs, q', m', hcalls, hfree, howns, -⟩ := free_dropped hnew nofun sixCalls
  refine ⟨_, _, bs, q', m', hnew, hcalls, hfree, howns, ?_⟩
  have hlength : (newWithPool (.fresh false refusing fun _ => 0xFF)).1.bind
      (fun q => (addAll sixCalls q).map (·.2.dropped.length)) = some 1 := by decide +kernel
  rw [hnew, Option.bind_some, hcalls] at hlength
  exact Option.some.inj hlength

end

end HeapKeySet

end Eltn
