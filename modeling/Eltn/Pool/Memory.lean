import Eltn.CLib
import Eltn.Lib.Heap

/-!
# Blocks of the pool and of the library

The functions of `ealloc.c` on blocks. `malloc` and the allocator of a pool answer requests as they
like. A function has no result where it leaves a block, uses one that is not live, or uses a block
that it was not given; a call that hands an allocator a block of another one is counted (`crossed`).
`Ledger` is what the functions keep of a memory in which each block has one owner: a part that is
freed through the library, and a part that is handed to the pool.
-/

namespace Eltn

/-- Where a block was allocated: in the library, by `malloc`, or by the allocator of a pool. -/
inductive Origin where
  | library
  | pool
deriving DecidableEq, Repr

/-- A block of memory: where it came from and what it holds. -/
structure Block where
  origin : Origin
  bytes : Bytes
deriving DecidableEq, Repr

/-- A pointer to a block, or `NULL`. -/
abbrev Pointer := Option Nat

/-- The memory behind an `ELTN_Pool*`, which is `NULL` unless there is a `custom` allocator.
`answers o i` says whether the `i`-th request to `o` is granted, of which there were `asked o` so
far; `junk` is what new memory holds. -/
structure Memory where
  heap : Heap Block := {}
  custom : Bool
  answers : Origin → Nat → Bool
  asked : Origin → Nat := fun _ => 0
  junk : Nat → UInt8
  crossed : Nat := 0

namespace Memory

/-- Memory in which nothing was allocated. -/
def fresh (custom : Bool) (answers : Origin → Nat → Bool) (junk : Nat → UInt8) : Memory :=
  { custom := custom, answers := answers, junk := junk }

/-- The allocator that `ELTN_alloc`, `ELTN_realloc` and `ELTN_free` call. -/
def poolOrigin (m : Memory) : Origin := if m.custom then .pool else .library

/-- New memory of a size, which holds what the allocator left in it. -/
def raw (m : Memory) (size : Nat) : Bytes := (List.range size).map m.junk

/-- A request for a block, with what is first stored in it. It counts whether it is granted or not.
-/
def request (o : Origin) (bytes : Bytes) (m : Memory) : Pointer × Memory :=
  let granted := m.answers o (m.asked o)
  let m := { m with asked := Function.update m.asked o (m.asked o + 1) }
  if granted then
    let new := m.heap.alloc ⟨o, bytes⟩
    (some new.1, { m with heap := new.2 })
  else (none, m)

/-- A block is handed to the allocator of the pool, which counts if another one allocated it. -/
def hand (block : Block) (m : Memory) : Memory :=
  if block.origin = m.poolOrigin then m else { m with crossed := m.crossed + 1 }

/-- `ELTN_alloc` (`ealloc.c:93`): a block of zero bytes, of the pool's allocator or of the library
without one. -/
def alloc (size : Nat) (m : Memory) : Pointer × Memory :=
  m.request m.poolOrigin (List.replicate size 0)

/-- `ELTN_realloc` (`ealloc.c:106`), to a size that is not zero: the bytes move to another block, as
many as it holds, and the old one is freed. It stays where there is no other. -/
def realloc (ptr : Pointer) (size : Nat) (m : Memory) : Option (Pointer × Memory) :=
  match ptr with
  | none => some (m.request m.poolOrigin (m.raw size))
  | some a => do
    let block ← m.heap.get a
    let (new, m) := (m.hand block).request m.poolOrigin
      ((block.bytes ++ m.raw (size - block.bytes.length)).take size)
    if new.isSome then
      let heap ← m.heap.free a
      some (new, { m with heap := heap })
    else some (none, m)

/-- `ELTN_free` (`ealloc.c:114`): the block is handed to the pool's allocator. That takes a call on
`NULL` for a request of no bytes, while the library takes it for none. -/
def free (ptr : Pointer) (m : Memory) : Option Memory :=
  match ptr with
  | none => some (if m.custom then (m.request .pool []).2 else m)
  | some a => do
    let block ← m.heap.get a
    let heap ← m.heap.free a
    some { m.hand block with heap := heap }

/-- `ELTN_new_string` (`ealloc.c:122`): a copy with its terminator, in a block of the library. It
does not look at what `malloc` gives, so there is no result where that is `NULL`. -/
def newString (src : Bytes) (m : Memory) : Option (Nat × Memory) :=
  match m.request .library (src ++ [0]) with
  | (some dest, m) => some (dest, m)
  | (none, _) => none

/-- `ELTN_free_string` (`ealloc.c:132`): nothing for `NULL`, else the library frees the block.
`free` takes no block of another allocator. -/
def freeString (str : Pointer) (m : Memory) : Option Memory :=
  match str with
  | none => some m
  | some a => do
    let block ← m.heap.get a
    if block.origin = .library then
      let heap ← m.heap.free a
      some { m with heap := heap }
    else none

/-- A block is overwritten as a whole; its origin stays. -/
def store (a : Nat) (bytes : Bytes) (m : Memory) : Option Memory := do
  let block ← m.heap.get a
  let heap ← m.heap.set a { block with bytes := bytes }
  some { m with heap := heap }

/-- The bytes behind a pointer. -/
def bytes (ptr : Pointer) (m : Memory) : Option Bytes :=
  ptr.bind fun a => (m.heap.get a).map Block.bytes

/-- A request that is granted takes a new block with the bytes, and is counted. -/
theorem request_granted {m : Memory} {o : Origin} (hgrant : m.answers o (m.asked o) = true)
    (bytes : Bytes) :
    m.request o bytes = (some (m.heap.alloc ⟨o, bytes⟩).1, { m with
      asked := Function.update m.asked o (m.asked o + 1)
      heap := (m.heap.alloc ⟨o, bytes⟩).2 }) := by
  rw [request, hgrant]
  rfl

/-- A request that is refused gives `NULL`, and is counted as well. -/
theorem request_refused {m : Memory} {o : Origin} (hgrant : m.answers o (m.asked o) = false)
    (bytes : Bytes) :
    m.request o bytes =
      (none, { m with asked := Function.update m.asked o (m.asked o + 1) }) := by
  rw [request, hgrant]
  rfl

/-! ## The ledger -/

/-- One for a block that the allocator of the pool did not give. -/
def foreign (m : Memory) (a : Nat) : Nat :=
  if (m.heap.get a).any (·.origin ≠ m.poolOrigin) then 1 else 0

/-- The live blocks: `own` ones of the library, `pooled` ones that go to the pool in the end, and
those that are lost, of which there are none without a pool. Of the pooled ones `n` came from the
library; those are counted when they are handed over. The library never refuses. -/
structure Ledger (m : Memory) (own pooled : List Nat) (n : Nat) : Prop where
  answers : ∀ i, m.answers .library i = true
  owns : ∃ lost, m.heap.Owns (own ++ (pooled ++ lost)) ∧ (m.custom = false → lost = [])
  library : ∀ a ∈ own, ∃ bytes, m.heap.get a = some ⟨.library, bytes⟩
  crossed : m.crossed + (pooled.map m.foreign).sum = if m.custom then n else 0

/-- What a step leaves alone: the allocators, and the blocks at the addresses. -/
structure Frame (as : List Nat) (m m' : Memory) : Prop where
  custom : m'.custom = m.custom
  agree : Heap.Agree as m.heap m'.heap

section
variable {m m' : Memory} {own pooled as cs : List Nat} {n : Nat} {a : Nat} {p : Pointer}
  {block : Block}

/-- To do nothing leaves everything alone. -/
theorem Frame.refl (as : List Nat) (m : Memory) : Frame as m m := ⟨rfl, fun _ _ => rfl⟩

/-- What two steps leave alone both of them leave alone together. -/
theorem Frame.trans {m'' : Memory} (h : Frame as m m') (h' : Frame as m' m'') : Frame as m m'' :=
  ⟨h'.custom.trans h.custom, fun a ha => (h'.agree a ha).trans (h.agree a ha)⟩

/-- A step that leaves some blocks alone leaves fewer of them alone. -/
theorem Frame.mono (h : Frame as m m') (hsub : cs ⊆ as) : Frame cs m m' :=
  ⟨h.custom, fun a ha => h.agree a (hsub ha)⟩

/-- A step does not change which allocator a pool calls. -/
theorem Frame.poolOrigin (h : Frame as m m') : m'.poolOrigin = m.poolOrigin := by
  rw [Memory.poolOrigin, Memory.poolOrigin, h.custom]

/-- That a block is handed over is counted, and changes no block. -/
theorem hand_heap (block : Block) (m : Memory) : (m.hand block).heap = m.heap := by
  rw [hand]
  split <;> rfl

/-- So it leaves everything alone. -/
theorem hand_frame (as : List Nat) (block : Block) (m : Memory) :
    Frame as m (m.hand block) := by
  rw [hand]
  split <;> exact ⟨rfl, fun _ _ => rfl⟩

/-- A block that is left alone is as foreign as before. -/
theorem Frame.foreign (h : Frame as m m') (ha : a ∈ as) : m'.foreign a = m.foreign a := by
  rw [Memory.foreign, Memory.foreign, h.agree a ha, h.poolOrigin]

/-- Blocks that are left alone stay as foreign to the pool as they were. -/
theorem Frame.sum_foreign (h : Frame as m m') (hsub : cs ⊆ as) :
    (cs.map m'.foreign).sum = (cs.map m.foreign).sum :=
  congrArg List.sum (List.map_congr_left fun _ ha => h.foreign (hsub ha))

/-- Whether a block is foreign to the pool is told by where it came from. -/
theorem foreign_eq (hget : m.heap.get a = some block) :
    m.foreign a = if block.origin = m.poolOrigin then 0 else 1 := by
  simp [Memory.foreign, hget]

namespace Ledger

/-- A block that is taken over from the library counts. -/
theorem handOver (h : Ledger m (a :: own) pooled n) : Ledger m own (a :: pooled) (n + 1) := by
  obtain ⟨hanswers, ⟨lost, howns, hlost⟩, hlibrary, hcrossed⟩ := h
  obtain ⟨bytes, hget⟩ := hlibrary a List.mem_cons_self
  refine ⟨hanswers, ⟨lost, howns.perm List.perm_middle.symm, hlost⟩,
    fun b hb => hlibrary b (List.mem_cons_of_mem a hb), ?_⟩
  rw [List.map_cons, List.sum_cons, foreign_eq hget, Memory.poolOrigin, Nat.add_left_comm, hcrossed]
  cases m.custom with
  | false => rfl
  | true => exact Nat.add_comm _ _

/-- **A request.** A block of the library can be owned; one of the pool's allocator goes to the
pool. With a pool it can also be dropped. By the answer of the allocator; a block that is granted is
none of those that are owned, and it leaves these as they are. -/
theorem request (h : Ledger m own pooled n) (o : Origin) (bytes : Bytes) :
    (∃ a m', m.request o bytes = (some a, m') ∧ Frame (own ++ pooled) m m' ∧
      m'.heap.get a = some ⟨o, bytes⟩ ∧ (o = .library → Ledger m' (a :: own) pooled n) ∧
      (o = m.poolOrigin → Ledger m' own (a :: pooled) n) ∧
      (m.custom = true → Ledger m' own pooled n)) ∨
    m.answers o (m.asked o) = false ∧
      ∃ m', m.request o bytes = (none, m') ∧ Frame (own ++ pooled) m m' ∧
        Ledger m' own pooled n := by
  obtain ⟨hanswers, ⟨lost, howns, hlost⟩, hlibrary, hcrossed⟩ := h
  cases hgrant : m.answers o (m.asked o) with
  | false =>
    exact .inr ⟨rfl, _, request_refused hgrant bytes, ⟨rfl, fun _ _ => rfl⟩,
      ⟨hanswers, ⟨lost, howns, hlost⟩, hlibrary, hcrossed⟩⟩
  | true =>
    have hrequest := request_granted hgrant bytes
    obtain ⟨howns', hagree⟩ := howns.alloc ⟨o, bytes⟩
    have hget : (m.heap.alloc ⟨o, bytes⟩).2.get (m.heap.alloc ⟨o, bytes⟩).1 = some ⟨o, bytes⟩ :=
      Heap.get_alloc_self
    generalize m.heap.alloc ⟨o, bytes⟩ = new at *
    obtain ⟨a, heap⟩ := new
    obtain ⟨m', hm'⟩ : ∃ m' : Memory, m' = { m with
        asked := Function.update m.asked o (m.asked o + 1)
        heap := heap } := ⟨_, rfl⟩
    rw [← hm'] at hrequest
    rw [← List.append_assoc] at hagree
    have hframe : Frame (own ++ pooled) m m' := by
      rw [hm']
      exact ⟨rfl, fun a ha => hagree a (List.mem_append_left lost ha)⟩
    have hheap : heap = m'.heap := hm' ▸ rfl
    have hanswers' : ∀ i, m'.answers .library i = true := hm' ▸ hanswers
    have hkept (a : Nat) (ha : a ∈ own) : ∃ bytes', m'.heap.get a = some ⟨.library, bytes'⟩ := by
      rw [hframe.agree a (List.mem_append_left pooled ha)]
      exact hlibrary a ha
    have hcrossed' : m'.crossed + (pooled.map m'.foreign).sum = if m'.custom then n else 0 := by
      rw [hframe.sum_foreign (List.subset_append_right own _), hframe.custom, hm']
      exact hcrossed
    dsimp only at hget howns'
    rw [hheap] at hget howns'
    refine .inl ⟨a, m', hrequest, hframe, hget, fun ho => ?_, fun ho => ?_, fun hc => ?_⟩
    · refine ⟨hanswers', ⟨lost, howns', hframe.custom ▸ hlost⟩, ?_, hcrossed'⟩
      rw [List.forall_mem_cons]
      exact ⟨⟨bytes, ho ▸ hget⟩, hkept⟩
    · have hzero : m'.foreign a = 0 := by
        rw [foreign_eq hget, hframe.poolOrigin, if_pos ho]
      refine ⟨hanswers', ⟨lost, howns'.perm List.perm_middle.symm, hframe.custom ▸ hlost⟩,
        hkept, ?_⟩
      rw [List.map_cons, List.sum_cons, hzero, Nat.zero_add]
      exact hcrossed'
    · refine ⟨hanswers', ⟨a :: lost, howns'.perm ?_, fun hc' => ?_⟩, hkept, hcrossed'⟩
      · rw [← List.append_assoc, ← List.append_assoc]
        exact List.perm_middle.symm
      · rw [hframe.custom, hc] at hc'
        cases hc'

/-- The order in which a ledger lists its blocks does not matter. -/
theorem perm (h : Ledger m own pooled n) (hown : own.Perm as) (hpooled : pooled.Perm cs) :
    Ledger m as cs n := by
  obtain ⟨hanswers, ⟨lost, howns, hlost⟩, hlibrary, hcrossed⟩ := h
  refine ⟨hanswers, ⟨lost, howns.perm (hown.append (hpooled.append_right lost)), hlost⟩,
    fun a ha => hlibrary a (hown.mem_iff.mpr ha), ?_⟩
  rw [← List.Perm.sum_nat (hpooled.map m.foreign)]
  exact hcrossed

/-- A block of the pool's part is handed over, which counts where it came from the library and there
is a pool. -/
theorem hand (h : Ledger m own (a :: pooled) n) (hget : m.heap.get a = some block) :
    Ledger (m.hand block) own (a :: pooled) (n + m.foreign a) := by
  obtain ⟨hanswers, howns, hlibrary, hcrossed⟩ := h
  rw [foreign_eq hget, Memory.hand]
  split
  · exact ⟨hanswers, howns, hlibrary, hcrossed⟩
  · next hne =>
    refine ⟨hanswers, howns, hlibrary, ?_⟩
    have hone : m.foreign a = 1 := by rw [foreign_eq hget, if_neg hne]
    rw [List.map_cons, List.sum_cons, hone] at hcrossed
    change m.crossed + 1 + ((a :: pooled).map m.foreign).sum = if m.custom then n + 1 else 0
    rw [List.map_cons, List.sum_cons, hone]
    split at hcrossed <;> split <;> omega

/-- A block that was handed over is freed, and what is owned besides is left alone. -/
theorem discard (h : Ledger m own (a :: pooled) (n + m.foreign a)) : ∃ heap,
    m.heap.free a = some heap ∧ Ledger { m with heap := heap } own pooled n ∧
      Frame (own ++ pooled) m { m with heap := heap } := by
  obtain ⟨hanswers, ⟨lost, howns, hlost⟩, hlibrary, hcrossed⟩ := h
  rw [List.cons_append] at howns
  obtain ⟨heap, hfree, howns', hagree⟩ := (howns.perm List.perm_middle).free
  rw [← List.append_assoc] at hagree
  have hframe : Frame (own ++ pooled) m { m with heap := heap } :=
    ⟨rfl, fun b hb => hagree b (List.mem_append_left lost hb)⟩
  refine ⟨heap, hfree, ⟨hanswers, ⟨lost, howns', hlost⟩, fun b hb => ?_, ?_⟩, hframe⟩
  · rw [hframe.agree b (List.mem_append_left pooled hb)]
    exact hlibrary b hb
  · rw [hframe.sum_foreign (List.subset_append_right own _)]
    rw [List.map_cons, List.sum_cons] at hcrossed
    change m.crossed + (pooled.map m.foreign).sum = if m.custom then n else 0
    split at hcrossed <;> split <;> first | contradiction | omega

/-- A block that was handed over is lost where it is not freed. Only the allocator of a pool
refuses, so this happens with a pool alone. -/
theorem lose (h : Ledger m own (a :: pooled) (n + m.foreign a)) (hcustom : m.custom = true) :
    Ledger m own pooled n := by
  obtain ⟨hanswers, ⟨lost, howns, -⟩, hlibrary, hcrossed⟩ := h
  have hperm : (a :: pooled ++ lost).Perm (pooled ++ a :: lost) := List.perm_middle.symm
  refine ⟨hanswers, ⟨a :: lost, howns.perm (hperm.append_left own), fun hc => ?_⟩, hlibrary, ?_⟩
  · rw [hcustom] at hc
    cases hc
  · rw [List.map_cons, List.sum_cons] at hcrossed
    rw [if_pos hcustom] at hcrossed ⊢
    omega

/-- Only the allocator of a pool refuses. -/
theorem custom_of_refused (h : Ledger m own pooled n)
    (hrefused : m.answers m.poolOrigin (m.asked m.poolOrigin) = false) : m.custom = true := by
  rw [Memory.poolOrigin] at hrefused
  cases hcustom : m.custom with
  | true => rfl
  | false =>
    rw [hcustom] at hrefused
    cases (h.answers _).symm.trans hrefused

/-! ## The functions -/

/-- `ELTN_alloc` gives a block of zero bytes that goes to the pool's part, or none where the
allocator of a pool refuses it. -/
theorem alloc (h : Ledger m own pooled n) (size : Nat) : ∃ new m', m.alloc size = (new, m') ∧
    Ledger m' own (new.toList ++ pooled) n ∧ Frame (own ++ pooled) m m' ∧
      (new = none → m.custom = true) ∧
      ∀ a, new = some a → m'.heap.get a = some ⟨m.poolOrigin, List.replicate size 0⟩ := by
  rcases h.request m.poolOrigin (List.replicate size 0) with
    ⟨a, m', hrequest, hframe, hget, -, hledger, -⟩ | ⟨hrefused, m', hrequest, hframe, hledger⟩
  · refine ⟨some a, m', hrequest, hledger rfl, hframe, (fun hnone => by cases hnone),
      fun b hb => ?_⟩
    cases hb
    exact hget
  · exact ⟨none, m', hrequest, hledger, hframe, fun _ => h.custom_of_refused hrefused,
      fun _ h => by cases h⟩

/-- `ELTN_free` takes a block of the pool's part, or `NULL`, and leaves the others alone. -/
theorem free (h : Ledger m own (p.toList ++ pooled) n) : ∃ m', m.free p = some m' ∧
    Ledger m' own pooled n ∧ Frame (own ++ pooled) m m' := by
  rcases p with _ | a
  · rw [Memory.free]
    split
    · next hcustom =>
      rcases Ledger.request h .pool [] with
        ⟨a, m', hrequest, hframe, -, -, -, hledger⟩ | ⟨-, m', hrequest, hframe, hledger⟩
      · exact ⟨m', congrArg (some ·.2) hrequest, hledger hcustom, hframe⟩
      · exact ⟨m', congrArg (some ·.2) hrequest, hledger, hframe⟩
    · exact ⟨m, rfl, h, .refl _ _⟩
  · obtain ⟨-, ⟨lost, howns, -⟩, -, -⟩ := id h
    obtain ⟨block, hget⟩ := howns.get (a := a) (by simp)
    have hhand := Ledger.hand h hget
    rw [← (hand_frame (own ++ a :: pooled) block m).foreign (by simp)] at hhand
    obtain ⟨heap, hfree, hledger, hframe⟩ := hhand.discard
    rw [hand_heap] at hfree
    refine ⟨_, ?_, hledger, (hand_frame _ block m).trans hframe⟩
    rw [Memory.free, hget, Option.bind_eq_bind, Option.bind_some, hfree]
    rfl

/-- `ELTN_realloc` gives a block of the pool's allocator in the place of the old one; only the
allocator of a pool refuses it, and then the pointer to the old block is lost. The old block is
given up to the copy (`hand`), and then discarded where the new one was granted. -/
theorem realloc (h : Ledger m own (p.toList ++ pooled) n) (size : Nat) : ∃ new m',
    m.realloc p size = some (new, m') ∧ Ledger m' own (new.toList ++ pooled) n ∧
      Frame (own ++ pooled) m m' ∧ (new = none → m.custom = true) ∧
      ∀ a, new = some a → ∃ bytes, m'.heap.get a = some ⟨m.poolOrigin, bytes⟩ ∧
        bytes.length = size := by
  rcases p with _ | a
  · rcases Ledger.request h m.poolOrigin (m.raw size) with
      ⟨a, m', hrequest, hframe, hget, -, hledger, -⟩ | ⟨hrefused, m', hrequest, hframe, hledger⟩
    · refine ⟨some a, m', congrArg some hrequest, hledger rfl, hframe,
        (fun hnone => by cases hnone), fun b hb => ?_⟩
      cases hb
      exact ⟨_, hget, by rw [raw, List.length_map, List.length_range]⟩
    · exact ⟨none, m', congrArg some hrequest, hledger, hframe,
        fun _ => Ledger.custom_of_refused h hrefused, fun _ h => by cases h⟩
  · obtain ⟨-, ⟨lost, howns, -⟩, -, -⟩ := id h
    obtain ⟨block, hget⟩ := howns.get (a := a) (by simp)
    have hhanded := hand_frame (own ++ a :: pooled) block m
    have hhand := Ledger.hand h hget
    have hsize : ((block.bytes ++ m.raw (size - block.bytes.length)).take size).length = size := by
      rw [List.length_take, List.length_append, raw, List.length_map, List.length_range]
      omega
    rw [Memory.realloc, hget, Option.bind_eq_bind, Option.bind_some]
    generalize m.raw (size - block.bytes.length) = rest at hsize ⊢
    rcases hhand.request m.poolOrigin ((block.bytes ++ rest).take size) with
      ⟨c, m', hrequest, hframe, hnew, -, hledger, -⟩ | ⟨hrefused, m', hrequest, hframe, hledger⟩
    · have hsame : m'.foreign a = m.foreign a :=
        (hframe.foreign (by simp)).trans (hhanded.foreign (by simp))
      have hswap := (hledger hhanded.poolOrigin.symm).perm (.refl own)
        (.swap a c pooled)
      rw [← hsame] at hswap
      obtain ⟨heap, hfree, hledger', hframe'⟩ := hswap.discard
      refine ⟨some c, { m' with heap := heap }, ?_, hledger', ?_, (fun hnone => by cases hnone),
        fun b hb => ?_⟩
      · rw [hrequest]
        dsimp only
        rw [Option.isSome_some, if_pos rfl, hfree]
        rfl
      · exact ((hhanded.trans hframe).mono (by simp)).trans (hframe'.mono (by simp))
      · cases hb
        exact ⟨_, (hframe'.agree c (by simp)).trans hnew, hsize⟩
    · have hcustom :=
        hhanded.custom.symm.trans (hhand.custom_of_refused (hhanded.poolOrigin ▸ hrefused))
      have hsame : m'.foreign a = m.foreign a :=
        (hframe.foreign (by simp)).trans (hhanded.foreign (by simp))
      rw [← hsame] at hledger
      refine ⟨none, m', ?_, hledger.lose (hframe.custom.trans (hhanded.custom.trans hcustom)),
        (hhanded.trans hframe).mono (by simp), fun _ => hcustom, fun _ h => by cases h⟩
      rw [hrequest]
      rfl

/-- `ELTN_new_string`: the string is owned. -/
theorem newString (h : Ledger m own pooled n) (src : Bytes) : ∃ a m',
    m.newString src = some (a, m') ∧ Ledger m' (a :: own) pooled n ∧ Frame (own ++ pooled) m m' ∧
      m'.heap.get a = some ⟨.library, src ++ [0]⟩ := by
  rcases h.request .library (src ++ [0]) with
    ⟨a, m', hrequest, hframe, hget, hledger, -, -⟩ | ⟨hrefused, -⟩
  · exact ⟨a, m', by rw [Memory.newString, hrequest], hledger rfl, hframe, hget⟩
  · cases (h.answers _).symm.trans hrefused

/-- `ELTN_free_string` takes a block of the library, or `NULL`, and leaves the others alone. -/
theorem freeString (h : Ledger m (p.toList ++ own) pooled n) : ∃ m', m.freeString p = some m' ∧
    Ledger m' own pooled n ∧ Frame (own ++ pooled) m m' := by
  rcases p with _ | a
  · exact ⟨m, rfl, h, .refl _ _⟩
  · obtain ⟨hanswers, ⟨lost, howns, hlost⟩, hlibrary, hcrossed⟩ := h
    obtain ⟨bytes, hget⟩ := hlibrary a List.mem_cons_self
    have howns : m.heap.Owns (a :: (own ++ (pooled ++ lost))) := howns
    obtain ⟨heap, hfree, howns', hagree⟩ := howns.free
    rw [← List.append_assoc] at hagree
    have hframe : Frame (own ++ pooled) m { m with heap := heap } :=
      ⟨rfl, fun b hb => hagree b (List.mem_append_left lost hb)⟩
    refine ⟨{ m with heap := heap }, ?_, ⟨hanswers, ⟨lost, howns', hlost⟩, fun b hb => ?_, ?_⟩,
      hframe⟩
    · rw [Memory.freeString, hget, Option.bind_eq_bind, Option.bind_some, if_pos rfl, hfree]
      rfl
    · rw [hframe.agree b (List.mem_append_left pooled hb)]
      exact hlibrary b (List.mem_cons_of_mem a hb)
    · rw [hframe.sum_foreign (List.subset_append_right own _)]
      exact hcrossed

/-- A store to a block of the pool's part changes nothing else, and the block has the new bytes. The
block is none of the others since nothing is owned twice. -/
theorem store (h : Ledger m own (a :: pooled) n) (hget : m.heap.get a = some block)
    (bytes : Bytes) : ∃ m', m.store a bytes = some m' ∧ Ledger m' own (a :: pooled) n ∧
      Frame (own ++ pooled) m m' ∧ m'.heap.get a = some { block with bytes := bytes } := by
  obtain ⟨hanswers, ⟨lost, howns, hlost⟩, hlibrary, hcrossed⟩ := h
  obtain ⟨heap, hset, howns', hself, hother⟩ := howns.set (a := a) (by simp) { block with bytes }
  have hnew : a ∉ own ++ pooled := by
    have hnodup : (a :: (own ++ (pooled ++ lost))).Nodup := (howns.perm List.perm_middle).nodup
    rw [← List.append_assoc] at hnodup
    exact fun hmem => (List.nodup_cons.mp hnodup).1 (List.mem_append_left lost hmem)
  have hframe : Frame (own ++ pooled) m { m with heap := heap } :=
    ⟨rfl, fun b hb => hother b fun heq => hnew (heq ▸ hb)⟩
  have hforeign : Memory.foreign { m with heap := heap } a = m.foreign a := by
    rw [foreign_eq hget, foreign_eq (m := { m with heap := heap }) hself]
    rfl
  refine ⟨{ m with heap := heap }, ?_, ⟨hanswers, ⟨lost, howns', hlost⟩, fun b hb => ?_, ?_⟩,
    hframe, hself⟩
  · rw [Memory.store, hget, Option.bind_eq_bind, Option.bind_some, hset]
    rfl
  · rw [hframe.agree b (List.mem_append_left pooled hb)]
    exact hlibrary b hb
  · rw [List.map_cons, List.sum_cons, hforeign,
      hframe.sum_foreign (List.subset_append_right own _)]
    exact hcrossed

end Ledger

end

end Memory

end Eltn
