import Eltn.KeySet.Table
import Eltn.Pool.Basic
import Mathlib.Algebra.BigOperators.Group.List.Basic
import Mathlib.Data.List.Perm.Basic
import Mathlib.Logic.Relation

/-!
# Construction on a pool

The reference count of a pool is one plus the references of the objects on it, and a constructor
that fails leaves it as it was, in every history whose calls avoid three defects
(`construction_keeps_iff`): a parser whose buffer or lexer is not allocated is freed through `NULL`
pointers, a key set without an array is returned, and an iterator without keys keeps its reference.
-/

namespace Eltn

/-! ## The pool -/

namespace Pool

variable {h : Pool}

/-- The allocator grants the next `n` requests. -/
def Grants (h : Pool) (n : Nat) : Prop := ∀ k < n, h.grants (h.requests + k) = true

/-- An allocator that grants some requests grants the first of them. -/
theorem Grants.mono {m n : Nat} (hn : h.Grants n) (hle : m ≤ n) : h.Grants m :=
  fun k hk => hn k (by omega)

/-- It grants one more than `n` requests if it grants the next one and then `n` others. -/
theorem grants_succ (n : Nat) :
    h.Grants (n + 1) ↔ h.alloc.1 = true ∧ h.alloc.2.Grants n := by
  constructor
  · intro hn
    refine ⟨hn 0 (Nat.succ_pos n), fun k hk => ?_⟩
    have := hn (k + 1) (by omega)
    rwa [Nat.add_comm k, ← Nat.add_assoc] at this
  · rintro ⟨hfirst, hothers⟩ k hk
    cases k with
    | zero => exact hfirst
    | succ k =>
      have : h.grants (h.requests + 1 + k) = true := hothers k (by omega)
      rwa [Nat.add_assoc, Nat.add_comm 1] at this

/-- No request is always granted. -/
theorem grants_zero : h.Grants 0 := fun _ hk => absurd hk (Nat.not_lt_zero _)

/-- One request is granted if the next one is. -/
theorem grants_one : h.Grants 1 ↔ h.alloc.1 = true := by
  rw [grants_succ]
  exact and_iff_left grants_zero

/-- The two requests of most constructors. -/
theorem grants_two : h.Grants 2 ↔ h.alloc.1 = true ∧ h.alloc.2.acquire.alloc.1 = true := by
  rw [grants_succ, grants_one]
  exact Iff.rfl

/-- The pool behind `n` requests and `r` acquisitions. -/
def taken (r : UInt32) (n : Nat) (h : Pool) : Pool :=
  { h with refcnt := h.refcnt + r, requests := h.requests + n }

/-- Requests are granted one group after the other, and the second group is asked for behind the
first. -/
theorem grants_add {r : UInt32} {m n : Nat} :
    h.Grants (n + m) ↔ h.Grants n ∧ (h.taken r n).Grants m := by
  constructor
  · intro hall
    refine ⟨hall.mono (Nat.le_add_right n m), fun k hk => ?_⟩
    have := hall (n + k) (by omega)
    rwa [← Nat.add_assoc] at this
  · rintro ⟨hfirst, hothers⟩ k hk
    rcases Nat.lt_or_ge k n with hlt | hge
    · exact hfirst k hlt
    · have : h.grants (h.requests + n + (k - n)) = true := hothers (k - n) (by omega)
      rwa [Nat.add_assoc, Nat.add_sub_of_le hge] at this

/-- To take nothing changes nothing. -/
theorem taken_zero : h.taken 0 0 = h := by rw [taken, UInt32.add_zero, Nat.add_zero]

/-- One allocation takes one request and no reference. -/
theorem alloc_taken : h.alloc.2 = h.taken 0 1 := by rw [taken, UInt32.add_zero, alloc]

/-- What is taken in two parts is taken together. -/
theorem taken_taken (r r' : UInt32) (n n' : Nat) :
    (h.taken r n).taken r' n' = h.taken (r + r') (n + n') := by
  simp only [taken, UInt32.add_assoc, Nat.add_assoc]

/-- The count and the life of a pool, which requests leave as they are. -/
def Same (h h' : Pool) : Prop := h'.refcnt = h.refcnt ∧ h'.freed = h.freed

/-- The count and the flag stay the same over two steps that leave them. -/
theorem Same.trans {h₁ h₂ h₃ : Pool} (h₁₂ : Same h₁ h₂) (h₂₃ : Same h₂ h₃) : Same h₁ h₃ :=
  ⟨h₂₃.1.trans h₁₂.1, h₂₃.2.trans h₁₂.2⟩

/-- To free a block changes neither the count nor the flag; only the last release does. -/
theorem same_free (ptr : Ptr) (h : Pool) : Same h (h.free ptr) := by
  unfold free
  split <;> exact ⟨rfl, rfl⟩

/-- Nor does it to free all keys of an array. -/
theorem same_freeKeys (keys : List Key) (h : Pool) : Same h (h.freeKeys keys) := by
  induction keys generalizing h with
  | nil => exact ⟨rfl, rfl⟩
  | cons p keys ih => exact (same_free _ h).trans (ih _)

/-- A reference that is released behind its acquisition. -/
theorem release_acquired {h' : Pool} (hsame : Same h.acquire h') (hpos : h.refcnt ≠ 0) :
    Same h h'.release := by
  have hcount : h'.refcnt - 1 = h.refcnt := by
    rw [hsame.1]
    exact UInt32.add_sub_cancel h.refcnt 1
  refine ⟨hcount, ?_⟩
  show (h'.freed || decide (h'.refcnt - 1 = 0)) = h.freed
  rw [hcount, decide_eq_false hpos, Bool.or_false]
  exact hsame.2

/-- Some references are released, and others are left. -/
def Released (n : Nat) (h h' : Pool) : Prop :=
  h'.refcnt.toNat + n = h.refcnt.toNat ∧ h'.freed = h.freed

/-- A reference that is not the last is given back, and the pool stays. -/
theorem release_spec {h₀ : Pool} (hsame : Same h₀ h) (hcount : 1 < h₀.refcnt.toNat) :
    Released 1 h₀ h.release := by
  rw [← hsame.1] at hcount
  have hle : (1 : UInt32) ≤ h.refcnt := UInt32.le_iff_toNat_le.mpr (by show 1 ≤ _; omega)
  have hsub : (h.refcnt - 1).toNat = h.refcnt.toNat - 1 := UInt32.toNat_sub_of_le _ _ hle
  have hne : ¬ h.refcnt - 1 = 0 := by
    intro hzero
    rw [hzero] at hsub
    have : (0 : UInt32).toNat = 0 := rfl
    omega
  constructor
  · show (h.refcnt - 1).toNat + 1 = _
    rw [← hsame.1]
    omega
  · show (h.freed || decide (h.refcnt - 1 = 0)) = h₀.freed
    rw [decide_eq_false hne, Bool.or_false, hsame.2]

end Pool

/-! ## Constructors -/

section
open Pool
variable {h : Pool}

/-- All blocks are allocated. -/
def BufferObject.Complete (self : BufferObject) : Prop := self.buffer ≠ none

/-- All blocks are allocated. -/
def LexerObject.Complete (self : LexerObject) : Prop := self.tokenBuffer ≠ none

/-- All blocks are allocated, those of the parts too. -/
def ParserObject.Complete (self : ParserObject) : Prop :=
  (∃ buffer, self.buffer = some buffer ∧ buffer.Complete) ∧
    ∃ lexer, self.lexer = some lexer ∧ lexer.Complete

/-- All blocks are allocated: the array, and with it the strings of its keys. -/
def KeySetObject.Complete (self : KeySetObject) : Prop := self.array ≠ none

/-- All blocks are allocated: the array, and the string of each key. -/
def KeySetIterator.Complete (self : KeySetIterator) : Prop :=
  ∃ keys, self.keys = some keys ∧ keys.length = self.length ∧ ∀ p ∈ keys, p.used = true

/-- Where both requests are granted, `ELTN_Buffer_new_with_pool` returns a buffer with its block and
takes one reference. -/
theorem BufferObject.newWithPool_complete (hgrants : h.Grants 2) :
    newWithPool h = some (some { buffer := some initBufSize }, h.taken 1 2) := by
  obtain ⟨hfirst, hsecond⟩ := grants_two.mp hgrants
  simp only [newWithPool, hfirst, hsecond, Bool.not_true, Bool.false_eq_true, if_false]
  rfl

/-- Where one of them is refused it returns `NULL`. The reference that it has taken by then is given
back, so the count is as it was. -/
theorem BufferObject.newWithPool_fails (hgrants : ¬ h.Grants 2) :
    ∃ h', newWithPool h = some (none, h') ∧ (h.refcnt ≠ 0 → Same h h') := by
  unfold newWithPool
  dsimp only
  split
  · exact ⟨_, rfl, fun _ => ⟨rfl, rfl⟩⟩
  next hfirst =>
  split
  · exact ⟨_, rfl, release_acquired ⟨rfl, rfl⟩⟩
  · next hsecond =>
    exact absurd (grants_two.mpr ⟨by simpa using hfirst, by simpa using hsecond⟩) hgrants

/-- Where both requests are granted, `ELTN_Lexer_new_with_pool` returns a lexer with its token
buffer and takes one reference. -/
theorem LexerObject.newWithPool_complete (hgrants : h.Grants 2) :
    newWithPool h = some (some { tokenBuffer := some tokenBufSize }, h.taken 1 2) := by
  obtain ⟨hfirst, hsecond⟩ := grants_two.mp hgrants
  simp only [newWithPool, hfirst, hsecond, Bool.not_true, Bool.false_eq_true, if_false]
  rfl

/-- Where one of them is refused it returns `NULL` with the count as it was, as for buffers. -/
theorem LexerObject.newWithPool_fails (hgrants : ¬ h.Grants 2) :
    ∃ h', newWithPool h = some (none, h') ∧ (h.refcnt ≠ 0 → Same h h') := by
  unfold newWithPool
  dsimp only
  split
  · exact ⟨_, rfl, fun _ => ⟨rfl, rfl⟩⟩
  next hfirst =>
  split
  · exact ⟨_, rfl, release_acquired ⟨rfl, rfl⟩⟩
  · next hsecond =>
    exact absurd (grants_two.mpr ⟨by simpa using hfirst, by simpa using hsecond⟩) hgrants

/-- A parser with both its parts takes three references and five blocks. -/
theorem ParserObject.newWithPool_complete (hgrants : h.Grants 5) :
    ∃ self, newWithPool h = some (some self, h.taken 3 5) ∧ self.Complete := by
  obtain ⟨hfirst, hparts⟩ := (grants_add (r := 1) (m := 4) (n := 1)).mp hgrants
  obtain ⟨hbuffer, hlexer⟩ := (grants_add (r := 1) (m := 2) (n := 2)).mp hparts
  have hstart : h.alloc.2.acquire = h.taken 1 1 := rfl
  have hcount : ((h.taken 1 1).taken 1 2).taken 1 2 = h.taken 3 5 := by
    rw [taken_taken, taken_taken]
    rfl
  let buffer : BufferObject := { buffer := some initBufSize }
  let lexer : LexerObject := { tokenBuffer := some tokenBufSize, source := some buffer }
  refine ⟨{ buffer := some buffer, lexer := some lexer }, ?_,
    ⟨buffer, rfl, Option.some_ne_none _⟩, ⟨lexer, rfl, Option.some_ne_none _⟩⟩
  rw [newWithPool]
  simp only [grants_one.mp hfirst, hstart, BufferObject.newWithPool_complete hbuffer,
    LexerObject.newWithPool_complete hlexer, hcount, Option.bind_some, Bool.not_true,
    Bool.false_eq_true, if_false, Option.isNone_some]
  rfl

/-- Without its own block there is no parser. -/
theorem ParserObject.newWithPool_null (hfirst : ¬ h.Grants 1) :
    ∃ h', newWithPool h = some (none, h') ∧ Same h h' := by
  have hfirst : h.alloc.1 = false := by simpa [grants_one] using hfirst
  refine ⟨h.alloc.2, ?_, rfl, rfl⟩
  rw [newWithPool]
  simp only [hfirst, Bool.not_false, if_true]

/-- **A parser without one of its parts** is freed through a `NULL` pointer: the destructor of the
missing part follows it. -/
theorem ParserObject.newWithPool_none (hfirst : h.Grants 1) (hgrants : ¬ h.Grants 5) :
    newWithPool h = none := by
  have hstart : h.alloc.2.acquire = h.taken 1 1 := rfl
  rw [newWithPool]
  simp only [grants_one.mp hfirst, hstart, Bool.not_true, Bool.false_eq_true, if_false]
  by_cases hbuffer : (h.taken 1 1).Grants 2
  · have hlexer : ¬ ((h.taken 1 1).taken 1 2).Grants 2 := fun hlexer =>
      hgrants (grants_add.mpr ⟨hfirst, grants_add.mpr ⟨hbuffer, hlexer⟩⟩)
    obtain ⟨h', hnone, -⟩ := LexerObject.newWithPool_fails hlexer
    simp only [BufferObject.newWithPool_complete hbuffer, hnone, Option.bind_some,
      Option.isNone_some, Bool.false_eq_true, if_false, free, LexerObject.free, BufferObject.free,
      Option.map_none, Option.map_some]
  · obtain ⟨h', hnone, -⟩ := BufferObject.newWithPool_fails hbuffer
    simp only [hnone, Option.bind_some, Option.isNone_none, if_true, free, BufferObject.free,
      Option.map_none, Option.bind_none]

/-- A key that `init_key` makes from the type and the text of another. -/
def IsCopy (p value : Key) : Prop := ∃ behind, initKey true p.type p.str behind = some value

/-- A copy of a key that is used is used: it has the type of the key. -/
theorem IsCopy.used {p value : Key} (hcopy : IsCopy p value) (hp : p.used = true) :
    value.used = true := by
  obtain ⟨behind, hvalue⟩ := hcopy
  obtain ⟨value', hvalue', htype⟩ := initKey_true p.type p.str behind
  obtain rfl := Option.some.inj (hvalue'.symm.trans hvalue)
  simpa [Key.used, htype] using hp

/-- The same for a list of keys, copied one by one. -/
theorem used_of_copies {ps copies : List Key} (hcopies : List.Forall₂ IsCopy ps copies)
    (hps : ∀ p ∈ ps, p.used = true) : ∀ p ∈ copies, p.used = true := by
  induction hcopies with
  | nil => exact hps
  | cons hcopy _ ih =>
    obtain ⟨hp, hps⟩ := List.forall_mem_cons.mp hps
    exact List.forall_mem_cons.mpr ⟨hcopy.used hp, ih hps⟩

/-- The loop copies the keys in the order of their slots, or stops without one of the strings.
`copied` are the copies made before, and by induction on the slots those left come behind them. -/
theorem copyKeys_spec (after : Nat → Bytes) {length : Nat} {slots copied : List Key}
    (hlen : copied.length + (slots.filter Key.used).length = length) :
    (h.Grants (slots.filter Key.used).length ∧
      ∃ copies, copyKeys after length slots copied h =
          (true, copied ++ copies, h.taken 0 (slots.filter Key.used).length) ∧
        List.Forall₂ IsCopy (slots.filter Key.used) copies) ∨
    (¬ h.Grants (slots.filter Key.used).length ∧
      ∃ keys h', copyKeys after length slots copied h = (false, keys, h') ∧ Same h h') := by
  have hdone (copied : List Key) (h : Pool) :
      (true, copied, h) = (true, copied ++ [], h.taken 0 0) := by
    rw [List.append_nil, taken_zero]
  induction slots generalizing copied h with
  | nil => exact .inl ⟨grants_zero, [], hdone copied h, .nil⟩
  | cons p slots ih =>
    rw [copyKeys]
    cases hp : p.used with
    | false =>
      rw [List.filter_cons_of_neg (by simp [hp])] at hlen ⊢
      split
      · exact ih hlen
      · next hfull =>
        have hnone : slots.filter Key.used = [] := List.eq_nil_of_length_eq_zero (by omega)
        rw [hnone]
        exact .inl ⟨grants_zero, [], hdone copied h, .nil⟩
    | true =>
      rw [List.filter_cons_of_pos hp, List.length_cons] at hlen ⊢
      rw [if_pos (by omega), if_pos rfl, grants_succ]
      dsimp only
      cases hstr : h.alloc.1 with
      | false => exact .inr ⟨fun hall => by simp at hall, copied, _, rfl, rfl, rfl⟩
      | true =>
        obtain ⟨value, hvalue, -⟩ := initKey_true p.type p.str (after copied.length)
        rw [hvalue]
        have hlen' : (copied ++ [value]).length + (slots.filter Key.used).length = length := by
          rw [List.length_append, List.length_singleton]
          omega
        rcases ih (h := h.alloc.2) hlen' with
          ⟨hgrants, copies, heq, hcopies⟩ | ⟨hgrants, keys, h', heq, hsame⟩
        · have hrest : h.alloc.2.taken 0 (slots.filter Key.used).length =
              h.taken 0 ((slots.filter Key.used).length + 1) := by
            rw [alloc_taken, taken_taken, Nat.add_comm 1]
            rfl
          rw [hrest, List.append_assoc] at heq
          exact .inl ⟨⟨rfl, hgrants⟩, value :: copies, heq, .cons ⟨_, hvalue⟩ hcopies⟩
        · exact .inr ⟨fun hall => hgrants hall.2, keys, h', heq, hsame⟩

section
variable {self : KeySetObject}

/-- The copying loop of `Key_Set_iterator` behind the two requests of the iterator itself. If the
allocator grants a request for every key, all of them are copied in their order; otherwise the loop
breaks off, and the pool has the count it had. -/
theorem copyKeys_start (after : Nat → Bytes) (hsound : self.set.Sound) :
    ((h.taken 1 2).Grants self.set.nitems ∧
      ∃ keys, copyKeys after self.set.nitems self.set.array [] (h.taken 1 2) =
          (true, keys, h.taken 1 (2 + self.set.nitems)) ∧
        List.Forall₂ IsCopy self.set.stored keys) ∨
    (¬ (h.taken 1 2).Grants self.set.nitems ∧ ∃ keys h',
      copyKeys after self.set.nitems self.set.array [] (h.taken 1 2) = (false, keys, h') ∧
        Same (h.taken 1 2) h') := by
  have hcount : (self.set.array.filter Key.used).length = self.set.nitems := hsound.count.symm
  have hlen : ([] : List Key).length + (self.set.array.filter Key.used).length =
      self.set.nitems := by rw [List.length_nil, Nat.zero_add, hcount]
  have hloop := copyKeys_spec (h := h.taken 1 2) after hlen
  rwa [hcount, taken_taken] at hloop

/-- The iterator of a set, when its allocations succeed, has copies of the keys stored, in the order
of the table. -/
theorem KeySetObject.iterator_copies (after : Nat → Bytes) (hsound : self.set.Sound)
    (hgrants : h.Grants (2 + self.set.nitems)) :
    ∃ keys, self.iterator after h = some (some { length := self.set.nitems, keys := some keys },
        h.taken 1 (2 + self.set.nitems)) ∧
      List.Forall₂ IsCopy self.set.stored keys := by
  obtain ⟨htwo, hothers⟩ := (grants_add (r := 1)).mp hgrants
  obtain ⟨hfirst, hsecond⟩ := grants_two.mp htwo
  have hstart : h.alloc.2.acquire.alloc.2 = h.taken 1 2 := rfl
  rcases copyKeys_start (h := h) after hsound with ⟨-, keys, hcopy, hcopies⟩ | ⟨hno, -⟩
  · refine ⟨keys, ?_, hcopies⟩
    have hlength : keys.length = self.set.nitems := by
      rw [← hcopies.length_eq]
      exact hsound.count.symm
    have hrest : List.replicate (self.set.nitems - keys.length) ({} : Key) = [] := by
      rw [hlength, Nat.sub_self, List.replicate_zero]
    rw [iterator]
    simp only [hfirst, hsecond, hstart, hcopy, hrest, Bool.not_true, Bool.false_eq_true, if_false,
      if_true, List.append_nil]
  · exact absurd hothers hno

/-- **The outcomes of `Key_Set_iterator`**: an iterator with all its keys, `NULL` without its first
block or one of the strings, and `NULL` with the reference still taken. By the answers to its first
two requests, which are for the iterator and its array; behind them the strings are copied in
`copyKeys_start`. -/
theorem KeySetObject.iterator_cases (after : Nat → Bytes) (hsound : self.set.Sound)
    (hpos : h.refcnt ≠ 0) :
    (h.Grants (2 + self.set.nitems) ∧ ∃ iter,
        self.iterator after h = some (some iter, h.taken 1 (2 + self.set.nitems)) ∧
          iter.Complete) ∨
    (¬ h.Grants (2 + self.set.nitems) ∧ (h.Grants 1 → h.Grants 2) ∧
      ∃ h', self.iterator after h = some (none, h') ∧ Same h h') ∨
    (h.Grants 1 ∧ ¬ h.Grants 2 ∧ self.iterator after h = some (none, h.taken 1 2)) := by
  cases hfirst : h.alloc.1 with
  | false =>
    have hone : ¬ h.Grants 1 := by rw [grants_one, hfirst]; exact Bool.false_ne_true
    refine .inr (.inl ⟨fun hall => hone (hall.mono (by omega)), fun h1 => absurd h1 hone,
      h.alloc.2, ?_, rfl, rfl⟩)
    rw [iterator]
    simp only [hfirst, Bool.not_false, if_true]
  | true =>
    cases hsecond : h.alloc.2.acquire.alloc.1 with
    | false =>
      refine .inr (.inr ⟨grants_one.mpr hfirst, ?_, ?_⟩)
      · rw [grants_two, hsecond]
        exact fun hall => Bool.false_ne_true hall.2
      · rw [iterator]
        simp only [hfirst, hsecond, Bool.not_true, Bool.not_false, Bool.false_eq_true, if_false,
          if_true]
        rfl
    | true =>
      have htwo : h.Grants 2 := grants_two.mpr ⟨hfirst, hsecond⟩
      have hstart : h.alloc.2.acquire.alloc.2 = h.taken 1 2 := rfl
      rcases copyKeys_start (h := h) after hsound with ⟨hothers, -⟩ |
        ⟨hothers, keys, h', hcopy, hsame⟩
      · have hgrants : h.Grants (2 + self.set.nitems) := (grants_add (r := 1)).mpr ⟨htwo, hothers⟩
        obtain ⟨keys, hiter, hcopies⟩ := self.iterator_copies after hsound hgrants
        have hlength : keys.length = self.set.nitems := by
          rw [← hcopies.length_eq]
          exact hsound.count.symm
        have hused : ∀ p ∈ keys, p.used = true :=
          used_of_copies hcopies fun p hp => (KeySet.mem_stored.mp hp).2
        exact .inl ⟨hgrants, _, hiter, keys, rfl, hlength, hused⟩
      · have hfreed := hsame.trans
          (same_freeKeys (keys ++ List.replicate (self.set.nitems - keys.length) ({} : Key)) h')
        refine .inr (.inl ⟨fun hall => hothers ((grants_add (r := 1)).mp hall).2, fun _ => htwo, _,
          ?_, release_acquired hfreed hpos⟩)
        rw [iterator]
        simp only [hfirst, hsecond, hstart, hcopy, Bool.not_true, Bool.false_eq_true, if_false,
          KeySetIterator.free, Option.bind_some, Option.map_some]

end

/-- Where its request is granted, `ELTN_Emitter_new_with_pool` returns an emitter and takes one
reference. -/
theorem EmitterObject.newWithPool_complete (hgrants : h.Grants 1) :
    newWithPool h = (some {}, h.taken 1 1) := by
  simp only [newWithPool, grants_one.mp hgrants, Bool.not_true, Bool.false_eq_true, if_false]
  rfl

/-- Where it is refused, it returns `NULL` and has taken nothing. -/
theorem EmitterObject.newWithPool_fails (hgrants : ¬ h.Grants 1) :
    newWithPool h = (none, h.alloc.2) := by
  have hfirst : h.alloc.1 = false := by simpa [grants_one] using hgrants
  simp only [newWithPool, hfirst, Bool.not_false, if_true]

/-- Where both requests are granted, `Key_Set_new_with_pool` returns a set with its array and takes
one reference. -/
theorem KeySetObject.newWithPool_complete (hgrants : h.Grants 2) :
    newWithPool h = (some { array := some tableMinsiz }, h.taken 1 2) := by
  obtain ⟨hfirst, hsecond⟩ := grants_two.mp hgrants
  simp only [newWithPool, hfirst, hsecond, Bool.not_true, Bool.false_eq_true, if_false, if_true]
  rfl

/-- Where the first is refused it returns `NULL`. The second is another matter: it is the set that
is tested again, not its array. -/
theorem KeySetObject.newWithPool_null (hgrants : ¬ h.Grants 1) :
    newWithPool h = (none, h.alloc.2) := by
  have hfirst : h.alloc.1 = false := by simpa [grants_one] using hgrants
  simp only [newWithPool, hfirst, Bool.not_false, if_true]

/-- **A key set without an array** is returned, with its reference, as if it were complete. -/
theorem KeySetObject.newWithPool_incomplete (hfirst : h.Grants 1) (hgrants : ¬ h.Grants 2) :
    newWithPool h = (some {}, h.taken 1 2) := by
  have hfirst := grants_one.mp hfirst
  have hsecond : h.alloc.2.acquire.alloc.1 = false := by simpa [grants_two, hfirst] using hgrants
  simp only [newWithPool, hfirst, hsecond, Bool.not_true, Bool.false_eq_true, if_false]
  rfl

/-! ## Destructors -/

/-- `ELTN_Buffer_free` on a buffer gives its one reference back, where others are left. -/
theorem BufferObject.free_spec (self : BufferObject) (hcount : 1 < h.refcnt.toNat) :
    ∃ h', free (some self) h = some h' ∧ Released 1 h h' := by
  refine ⟨_, rfl, release_spec ?_ hcount⟩
  split
  · exact same_free _ h
  · exact ⟨rfl, rfl⟩

/-- `ELTN_Lexer_free` does the same for a lexer. -/
theorem LexerObject.free_spec (self : LexerObject) (hcount : 1 < h.refcnt.toNat) :
    ∃ h', free (some self) h = some h' ∧ Released 1 h h' :=
  ⟨_, rfl, release_spec (same_free _ h) hcount⟩

/-- A parser is freed with its parts. -/
theorem ParserObject.free_spec {self : ParserObject} (hcomplete : self.Complete)
    (hcount : 3 < h.refcnt.toNat) : ∃ h', free (some self) h = some h' ∧ Released 3 h h' := by
  obtain ⟨⟨buffer, hbuffer, -⟩, lexer, hlexer, -⟩ := hcomplete
  obtain ⟨h₁, hfree₁, hrefs₁, hfreed₁⟩ := buffer.free_spec (h := h) (by omega)
  obtain ⟨h₂, hfree₂, hrefs₂, hfreed₂⟩ := lexer.free_spec (h := h₁) (by omega)
  obtain ⟨hrefs₃, hfreed₃⟩ := release_spec (same_free self.string h₂) (by omega)
  refine ⟨(h₂.free self.string).release, ?_, by omega, hfreed₃.trans (hfreed₂.trans hfreed₁)⟩
  rw [free]
  simp only [hbuffer, hlexer, hfree₁, hfree₂, Option.bind_some, Option.map_some]

/-- `Key_Set_free` does the same for a set that has its array; without it the loop over the keys
would read through `NULL`. -/
theorem KeySetObject.free_spec {self : KeySetObject} (hcomplete : self.Complete)
    (hcount : 1 < h.refcnt.toNat) : ∃ h', free (some self) h = some h' ∧ Released 1 h h' := by
  obtain ⟨size, hsize⟩ := Option.ne_none_iff_exists'.mp hcomplete
  refine ⟨_, ?_, release_spec (same_freeKeys self.set.array h) hcount⟩
  rw [free, Option.bind_some, hsize, Option.map_some]

/-- `Key_Set_Iterator_free` does the same for an iterator that has its keys. -/
theorem KeySetIterator.free_spec {self : KeySetIterator} (hcomplete : self.Complete)
    (hcount : 1 < h.refcnt.toNat) : ∃ h', free (some self) h = some h' ∧ Released 1 h h' := by
  obtain ⟨keys, hkeys, -⟩ := hcomplete
  refine ⟨_, ?_, release_spec (same_freeKeys keys h) hcount⟩
  rw [free, Option.bind_some, hkeys]

/-- Adding a key takes no reference and leaves a complete set with a sound table, whichever of its
requests are refused. -/
theorem KeySetObject.addKey_spec (t : KeyType) (str probeAfter keyAfter : Bytes)
    {self : KeySetObject} (hcomplete : self.Complete)
    (hsound : self.set.Sound ∧ 0 < self.set.arraysize) :
    ∃ self' h', self.addKey t str probeAfter keyAfter h = some (self', h') ∧ Same h h' ∧
      self'.Complete ∧ self'.set.Sound ∧ 0 < self'.set.arraysize := by
  have harray : self.array.isNone = false :=
    Option.isNone_eq_false_iff.mpr (Option.ne_none_iff_isSome.mp hcomplete)
  unfold addKey
  simp only [harray, Bool.and_false, Bool.false_eq_true, if_false]
  split
  · exact ⟨self, h, rfl, ⟨rfl, rfl⟩, hcomplete, hsound⟩
  split
  · exact ⟨self, _, rfl, ⟨rfl, rfl⟩, hcomplete, hsound⟩
  · refine ⟨_, _, rfl, ?_, hcomplete, KeySet.addKey_sound _ t str hsound.1 hsound.2⟩
    split <;> exact ⟨rfl, rfl⟩

end

/-! ## Histories -/

/-- The references an object holds; a parser's are its own and those of its two parts. -/
def Object.references : Object → Nat
  | .parser _ => 3
  | .buffer _ | .lexer _ | .emitter _ | .keySet _ | .iterator _ => 1

/-- All blocks of the object are allocated; an emitter has none of its own. -/
def Object.Complete : Object → Prop
  | .parser self => self.Complete
  | .buffer self => self.Complete
  | .lexer self => self.Complete
  | .emitter _ => True
  | .keySet self => self.Complete
  | .iterator self => self.Complete

/-- To free a complete object gives back as many references as the object holds, whatever it is. The
pool stays as long as there is a reference left. -/
theorem Object.free_spec {o : Object} {h : Pool} (hcomplete : o.Complete)
    (hcount : o.references < h.refcnt.toNat) :
    ∃ h', o.free h = some h' ∧ Pool.Released o.references h h' := by
  cases o with
  | parser self => exact ParserObject.free_spec hcomplete hcount
  | buffer self => exact self.free_spec hcount
  | lexer self => exact self.free_spec hcount
  | emitter self => exact ⟨_, rfl, Pool.release_spec ⟨rfl, rfl⟩ hcount⟩
  | keySet self => exact KeySetObject.free_spec hcomplete hcount
  | iterator self => exact KeySetIterator.free_spec hcomplete hcount

namespace PoolState

variable {s s' : PoolState} {c : Call} {r : Returned} {o : Object}

/-- The references of the live objects. -/
def references (s : PoolState) : Nat := (s.objects.map Object.references).sum

/-- The reference count is the creator's one and those of the live objects. -/
def Counted (s : PoolState) : Prop :=
  s.pool.freed = false ∧ s.pool.refcnt.toNat = 1 + s.references

/-- The call neither frees an object through `NULL` nor breaks the count, and a constructor returns
an object with all its blocks, or `NULL` with the count as it was. -/
def Keeps (s : PoolState) (c : Call) : Prop :=
  ∃ r s', s.call c = some (r, s') ∧ s'.Counted ∧
    match r with
    | .object o => o.Complete
    | .null => s'.pool.refcnt = s.pool.refcnt
    | .done => True

/-- The reference count can count `n` more. -/
def Room (s : PoolState) (n : Nat) : Prop := 1 + s.references + n < 2 ^ 32

instance (s : PoolState) (n : Nat) : Decidable (s.Room n) := inferInstanceAs (Decidable (_ < _))

/-- The condition on a call. Where the allocator grants the first block of a parser it grants the
other four, where it grants that of a key set or an iterator it grants the array, and where a
constructor gets all its blocks the count has room. -/
def Meets (s : PoolState) : Call → Prop
  | .parserNew => s.pool.Grants 1 → s.pool.Grants 5 ∧ s.Room 3
  | .bufferNew | .lexerNew => s.pool.Grants 2 → s.Room 1
  | .emitterNew => s.pool.Grants 1 → s.Room 1
  | .keySetNew => s.pool.Grants 1 → s.pool.Grants 2 ∧ s.Room 1
  | .iterator i _ =>
    match s.objects[i]? with
    | some (.keySet self) =>
      (s.pool.Grants 1 → s.pool.Grants 2) ∧ (s.pool.Grants (2 + self.set.nitems) → s.Room 1)
    | _ => True
  | .addKey .. | .free _ => True

/-- A call that meets its condition. -/
def Step (s s' : PoolState) : Prop := ∃ c r, s.Meets c ∧ s.call c = some (r, s')

/-- What holds in every state of a history whose calls meet their conditions: the references are
counted, and every object is complete. -/
structure Inv (s : PoolState) : Prop where
  counted : s.Counted
  complete : ∀ o ∈ s.objects, o.Complete
  sound : ∀ self : KeySetObject, .keySet self ∈ s.objects → self.set.Sound ∧ 0 < self.set.arraysize

/-- The call neither frees an object through `NULL` nor returns half of one, and its `NULL` leaves
the count as it was, all as in `Keeps`; and behind it the whole invariant holds, not only the
count. -/
def Good (s : PoolState) (c : Call) : Prop :=
  ∃ r s', s.call c = some (r, s') ∧ s'.Inv ∧
    match r with
    | .object o => o.Complete
    | .null => s'.pool.refcnt = s.pool.refcnt
    | .done => True

/-- A call that keeps the whole invariant keeps the count. -/
theorem Good.keeps (h : s.Good c) : s.Keeps c := by
  obtain ⟨r, s', hcall, hinv, hr⟩ := h
  exact ⟨r, s', hcall, hinv.counted, hr⟩

/-- A call that returns `NULL` and leaves the count. -/
theorem good_null {pool : Pool} (hinv : s.Inv)
    (hcall : s.call c = some (.null, { s with pool := pool })) (hsame : s.pool.Same pool) :
    s.Good c := by
  obtain ⟨hfreed, hcount⟩ := hinv.counted
  refine ⟨.null, _, hcall, ⟨⟨hsame.2.trans hfreed, ?_⟩, hinv.complete, hinv.sound⟩, hsame.1⟩
  show pool.refcnt.toNat = 1 + s.references
  rw [hsame.1, hcount]

/-- A call that returns an object, under a condition that asks for the room of its references in the
count. The count is that of the references unless it wraps around, and it wraps around just where
there is no room. -/
theorem good_object {P : Prop} {n : UInt32} {m : Nat} (hinv : s.Inv)
    (hcall : s.call c = some (.object o,
      { pool := s.pool.taken n m, objects := s.objects ++ [o] }))
    (hrefs : n.toNat = o.references) (hcomplete : o.Complete)
    (hsound : ∀ self, o = .keySet self → self.set.Sound ∧ 0 < self.set.arraysize)
    (hP : P ↔ s.Room o.references) : P ∧ s.Good c ∨ ¬ P ∧ ¬ s.Keeps c := by
  rw [hP]
  obtain ⟨hfreed, hcount⟩ := hinv.counted
  have htotal : ((s.objects ++ [o]).map Object.references).sum = s.references + o.references := by
    simp [references]
  have hafter : (s.pool.refcnt + n).toNat = (1 + s.references + o.references) % 2 ^ 32 := by
    rw [UInt32.toNat_add, hcount, hrefs]
  rcases Nat.lt_or_ge (1 + s.references + o.references) (2 ^ 32) with hroom | hfull
  · refine .inl ⟨hroom, .object o, _, hcall, ⟨⟨hfreed, ?_⟩, ?_, ?_⟩, hcomplete⟩
    · show (s.pool.refcnt + n).toNat = 1 + ((s.objects ++ [o]).map Object.references).sum
      rw [hafter, htotal, Nat.mod_eq_of_lt hroom, Nat.add_assoc]
    · intro o' ho'
      rcases List.mem_append.mp ho' with ho' | ho'
      · exact hinv.complete o' ho'
      · rwa [List.mem_singleton.mp ho']
    · intro self hself
      rcases List.mem_append.mp hself with hself | hself
      · exact hinv.sound self hself
      · exact hsound self (List.mem_singleton.mp hself).symm
  · refine .inr ⟨fun hroom => absurd hroom (Nat.not_lt.mpr hfull), ?_⟩
    rintro ⟨r, s', hcall', ⟨-, hcount'⟩, -⟩
    rw [hcall] at hcall'
    cases hcall'
    have hlt : (s.pool.refcnt + n).toNat < 2 ^ 32 := UInt32.toNat_lt _
    have hcount' : (s.pool.refcnt + n).toNat =
        1 + ((s.objects ++ [o]).map Object.references).sum := hcount'
    rw [htotal] at hcount'
    omega

/-- In a state of such a history the pool is not freed, so a call can use it. -/
theorem call_live (hinv : s.Inv) : ¬ s.pool.freed = true := by
  rw [hinv.counted.1]
  exact Bool.false_ne_true

/-- Nor is its count zero, since the creator holds one reference. -/
theorem refcnt_ne_zero (hinv : s.Inv) : s.pool.refcnt ≠ 0 := by
  intro hzero
  have hcount := hinv.counted.2
  rw [hzero] at hcount
  have : (0 : UInt32).toNat = 0 := rfl
  omega

/-- `ELTN_Parser_new_with_pool` makes three objects with five requests. If the first is refused it
returns `NULL`; if a later one is, it frees a part that is `NULL`. -/
theorem parserNew_cases (hinv : s.Inv) :
    s.Meets .parserNew ∧ s.Good .parserNew ∨ ¬ s.Meets .parserNew ∧ ¬ s.Keeps .parserNew := by
  have hcall : s.call .parserNew =
      (ParserObject.newWithPool s.pool).map (s.constructed .parser) := if_neg (call_live hinv)
  by_cases hfirst : s.pool.Grants 1
  · by_cases hall : s.pool.Grants 5
    · obtain ⟨self, hself, hcomplete⟩ := ParserObject.newWithPool_complete hall
      rw [hself] at hcall
      exact good_object hinv hcall rfl hcomplete (fun _ h => by cases h)
        ⟨fun hmeets => (hmeets hfirst).2, fun hroom _ => ⟨hall, hroom⟩⟩
    · refine .inr ⟨fun hmeets => hall (hmeets hfirst).1, ?_⟩
      rintro ⟨r, s', hcall', -⟩
      rw [hcall, ParserObject.newWithPool_none hfirst hall] at hcall'
      cases hcall'
  · obtain ⟨h', hself, hsame⟩ := ParserObject.newWithPool_null hfirst
    rw [hself] at hcall
    exact .inl ⟨fun h => absurd h hfirst, good_null hinv hcall hsame⟩

/-- A constructor of an object with one block besides its own, which fails without them: it meets
its condition and is good, or it does not and breaks the count. -/
theorem new_cases (hinv : s.Inv)
    (hcomplete : s.pool.Grants 2 →
      s.call c = some (.object o, { pool := s.pool.taken 1 2, objects := s.objects ++ [o] }))
    (hfails : ¬ s.pool.Grants 2 →
      ∃ h', s.call c = some (.null, { s with pool := h' }) ∧ s.pool.Same h')
    (hrefs : o.references = 1) (ho : o.Complete) (hset : ∀ self, o ≠ .keySet self) :
    (s.pool.Grants 2 → s.Room 1) ∧ s.Good c ∨ ¬ (s.pool.Grants 2 → s.Room 1) ∧ ¬ s.Keeps c := by
  by_cases hall : s.pool.Grants 2
  · exact good_object hinv (hcomplete hall) hrefs.symm ho (fun self h => absurd h (hset self))
      ⟨fun hmeets => hrefs ▸ hmeets hall, fun hroom _ => hrefs ▸ hroom⟩
  · obtain ⟨h', hcall, hsame⟩ := hfails hall
    exact .inl ⟨fun h => absurd h hall, good_null hinv hcall hsame⟩

/-- `ELTN_Buffer_new_with_pool` unwinds what it took, so only the room of the count can be missing.
-/
theorem bufferNew_cases (hinv : s.Inv) :
    s.Meets .bufferNew ∧ s.Good .bufferNew ∨ ¬ s.Meets .bufferNew ∧ ¬ s.Keeps .bufferNew := by
  have hcall : s.call .bufferNew =
      (BufferObject.newWithPool s.pool).map (s.constructed .buffer) := if_neg (call_live hinv)
  refine new_cases (o := .buffer { buffer := some initBufSize }) hinv (fun hall => ?_)
    (fun hall => ?_) rfl (Option.some_ne_none _) (fun _ h => by cases h)
  · rw [hcall, BufferObject.newWithPool_complete hall]
    rfl
  · obtain ⟨h', hself, hsame⟩ := BufferObject.newWithPool_fails hall
    rw [hself] at hcall
    exact ⟨h', hcall, hsame (refcnt_ne_zero hinv)⟩

/-- `ELTN_Lexer_new_with_pool` unwinds what it took as well. -/
theorem lexerNew_cases (hinv : s.Inv) :
    s.Meets .lexerNew ∧ s.Good .lexerNew ∨ ¬ s.Meets .lexerNew ∧ ¬ s.Keeps .lexerNew := by
  have hcall : s.call .lexerNew =
      (LexerObject.newWithPool s.pool).map (s.constructed .lexer) := if_neg (call_live hinv)
  refine new_cases (o := .lexer { tokenBuffer := some tokenBufSize }) hinv (fun hall => ?_)
    (fun hall => ?_) rfl (Option.some_ne_none _) (fun _ h => by cases h)
  · rw [hcall, LexerObject.newWithPool_complete hall]
    rfl
  · obtain ⟨h', hself, hsame⟩ := LexerObject.newWithPool_fails hall
    rw [hself] at hcall
    exact ⟨h', hcall, hsame (refcnt_ne_zero hinv)⟩

/-- `ELTN_Emitter_new_with_pool` takes nothing before its only request is granted. -/
theorem emitterNew_cases (hinv : s.Inv) :
    s.Meets .emitterNew ∧ s.Good .emitterNew ∨ ¬ s.Meets .emitterNew ∧ ¬ s.Keeps .emitterNew := by
  have hcall : s.call .emitterNew =
      some (s.constructed .emitter (EmitterObject.newWithPool s.pool)) := if_neg (call_live hinv)
  by_cases hfirst : s.pool.Grants 1
  · rw [EmitterObject.newWithPool_complete hfirst] at hcall
    exact good_object hinv hcall rfl trivial (fun _ h => by cases h)
      ⟨fun hmeets => hmeets hfirst, fun hroom _ => hroom⟩
  · rw [EmitterObject.newWithPool_fails hfirst] at hcall
    exact .inl ⟨fun h => absurd h hfirst, good_null hinv hcall ⟨rfl, rfl⟩⟩

/-- `Key_Set_new_with_pool` tests the set again where its array is meant, so with one request
granted and the next refused it returns a set without an array. -/
theorem keySetNew_cases (hinv : s.Inv) :
    s.Meets .keySetNew ∧ s.Good .keySetNew ∨ ¬ s.Meets .keySetNew ∧ ¬ s.Keeps .keySetNew := by
  have hcall : s.call .keySetNew =
      some (s.constructed .keySet (KeySetObject.newWithPool s.pool)) := if_neg (call_live hinv)
  by_cases hfirst : s.pool.Grants 1
  · by_cases hall : s.pool.Grants 2
    · rw [KeySetObject.newWithPool_complete hall] at hcall
      have hsound : ∀ self, Object.keySet { array := some tableMinsiz } = .keySet self →
          self.set.Sound ∧ 0 < self.set.arraysize := by
        intro self hself
        cases hself
        exact ⟨KeySet.new_sound, Nat.succ_pos _⟩
      exact good_object hinv hcall rfl (Option.some_ne_none _) hsound
        ⟨fun hmeets => (hmeets hfirst).2, fun hroom _ => ⟨hall, hroom⟩⟩
    · rw [KeySetObject.newWithPool_incomplete hfirst hall] at hcall
      refine .inr ⟨fun hmeets => hall (hmeets hfirst).1, ?_⟩
      rintro ⟨r, s', hcall', -, hr⟩
      rw [hcall] at hcall'
      cases hcall'
      exact hr rfl
  · rw [KeySetObject.newWithPool_null hfirst] at hcall
    exact .inl ⟨fun h => absurd h hfirst, good_null hinv hcall ⟨rfl, rfl⟩⟩

/-- A call on an object that does not exist. -/
theorem good_done (hinv : s.Inv) (hcall : s.call c = some (.done, s)) : s.Good c :=
  ⟨.done, s, hcall, hinv, trivial⟩

/-- `Key_Set_iterator` gives its reference back where the copying fails, but not where the array of
the keys is refused. -/
theorem keySet_iterator_cases {i : Nat} {self : KeySetObject} (after : Nat → Bytes)
    (hinv : s.Inv) (hself : s.objects[i]? = some (.keySet self)) :
    s.Meets (.iterator i after) ∧ s.Good (.iterator i after) ∨
      ¬ s.Meets (.iterator i after) ∧ ¬ s.Keeps (.iterator i after) := by
  have hcall : s.call (.iterator i after) =
      (self.iterator after s.pool).map (s.constructed .iterator) := by
    rw [call, if_neg (call_live hinv), hself]
  have hmeets : s.Meets (.iterator i after) ↔ (s.pool.Grants 1 → s.pool.Grants 2) ∧
      (s.pool.Grants (2 + self.set.nitems) → s.Room 1) := by
    rw [Meets, hself]
  rw [hmeets]
  have hsound := (hinv.sound self (List.mem_of_getElem? hself)).1
  rcases self.iterator_cases after hsound (refcnt_ne_zero hinv) with
    ⟨hall, iter, hiter, hcomplete⟩ | ⟨hall, htwo, h', hnull, hsame⟩ | ⟨hfirst, htwo, hnull⟩
  · rw [hiter] at hcall
    have htwo : s.pool.Grants 2 := hall.mono (Nat.le_add_right _ _)
    exact good_object hinv hcall rfl hcomplete (fun _ h => by cases h)
      ⟨fun hmeets => hmeets.2 hall, fun hroom => ⟨fun _ => htwo, fun _ => hroom⟩⟩
  · rw [hnull] at hcall
    exact .inl ⟨⟨htwo, fun h => absurd h hall⟩, good_null hinv hcall hsame⟩
  · -- the reference is still taken
    rw [hnull] at hcall
    refine .inr ⟨fun hmeets => htwo (hmeets.1 hfirst), ?_⟩
    rintro ⟨r, s', hcall', -, hr⟩
    rw [hcall] at hcall'
    cases hcall'
    have hcount : s.pool.refcnt + 1 = s.pool.refcnt := hr
    simp at hcount

/-- The same for a call on any object: on one that is no key set it does nothing, and meets its
condition. -/
theorem iterator_cases (i : Nat) (after : Nat → Bytes) (hinv : s.Inv) :
    s.Meets (.iterator i after) ∧ s.Good (.iterator i after) ∨
      ¬ s.Meets (.iterator i after) ∧ ¬ s.Keeps (.iterator i after) := by
  cases hobject : s.objects[i]? with
  | none =>
    have hcall : s.call (.iterator i after) = some (.done, s) := by
      rw [call, if_neg (call_live hinv), hobject]
    exact .inl ⟨by simp only [Meets, hobject], good_done hinv hcall⟩
  | some o =>
    cases o with
    | keySet self => exact keySet_iterator_cases after hinv hobject
    | parser | buffer | lexer | emitter | iterator =>
      have hcall : s.call (.iterator i after) = some (.done, s) := by
        rw [call, if_neg (call_live hinv), hobject]
      exact .inl ⟨by simp only [Meets, hobject], good_done hinv hcall⟩

/-- The references of an object and of the others. -/
theorem references_eraseIdx {i : Nat} (hobject : s.objects[i]? = some o) : s.references =
    o.references + ((s.objects.eraseIdx i).map Object.references).sum := by
  obtain ⟨hi, rfl⟩ := List.getElem?_eq_some_iff.mp hobject
  have hperm := (List.getElem_cons_eraseIdx_perm hi).map Object.references
  rw [references, ← hperm.sum_eq, List.map_cons, List.sum_cons]

/-- An object in the place of another with as many references. -/
theorem references_set {i : Nat} {o' : Object} (hobject : s.objects[i]? = some o)
    (hrefs : o'.references = o.references) :
    ((s.objects.set i o').map Object.references).sum = s.references := by
  obtain ⟨hi, -⟩ := List.getElem?_eq_some_iff.mp hobject
  have hperm := (List.set_perm_cons_eraseIdx hi o').map Object.references
  rw [hperm.sum_eq, List.map_cons, List.sum_cons, hrefs, references_eraseIdx hobject]

/-- **Freeing an object** releases its references and its blocks, and leaves the count right for the
objects that are left. -/
theorem free_good (i : Nat) (hinv : s.Inv) : s.Good (.free i) := by
  cases hobject : s.objects[i]? with
  | none =>
    have hcall : s.call (.free i) = some (.done, s) := by
      rw [call, if_neg (call_live hinv), hobject]
    exact good_done hinv hcall
  | some o =>
    obtain ⟨hlive, hcount⟩ := hinv.counted
    have hcomplete := hinv.complete o (List.mem_of_getElem? hobject)
    have htotal := references_eraseIdx hobject
    have hmore : o.references < s.pool.refcnt.toNat := by omega
    obtain ⟨pool, hfree, hrefs, hfreed⟩ := Object.free_spec hcomplete hmore
    have hcall : s.call (.free i) =
        some (.done, { pool := pool, objects := s.objects.eraseIdx i }) := by
      rw [call, if_neg (call_live hinv), hobject]
      dsimp only
      rw [hfree, Option.map_some]
    refine ⟨.done, _, hcall, ⟨⟨hfreed.trans hlive, ?_⟩, ?_, ?_⟩, trivial⟩
    · show pool.refcnt.toNat = 1 + ((s.objects.eraseIdx i).map Object.references).sum
      omega
    · exact fun o' ho' => hinv.complete o' (List.mem_of_mem_eraseIdx ho')
    · exact fun self hself => hinv.sound self (List.mem_of_mem_eraseIdx hself)

/-- Adding a key changes an object, and not the count of references. The references are those of the
objects, and neither the key nor a larger table is counted as one. -/
theorem addKey_good (i : Nat) (t : KeyType) (str probeAfter keyAfter : Bytes) (hinv : s.Inv) :
    s.Good (.addKey i t str probeAfter keyAfter) := by
  cases hobject : s.objects[i]? with
  | none =>
    have hcall : s.call (.addKey i t str probeAfter keyAfter) = some (.done, s) := by
      rw [call, if_neg (call_live hinv), hobject]
    exact good_done hinv hcall
  | some o =>
    cases o with
    | parser | buffer | lexer | emitter | iterator =>
      have hcall : s.call (.addKey i t str probeAfter keyAfter) = some (.done, s) := by
        rw [call, if_neg (call_live hinv), hobject]
      exact good_done hinv hcall
    | keySet self =>
      obtain ⟨hlive, hcount⟩ := hinv.counted
      have hmem := List.mem_of_getElem? hobject
      obtain ⟨self', pool, hadd, hsame, hcomplete, hsound⟩ :=
        self.addKey_spec t str probeAfter keyAfter (h := s.pool) (hinv.complete _ hmem)
          (hinv.sound self hmem)
      have hrefs : ((s.objects.set i (.keySet self')).map Object.references).sum =
          s.references := references_set hobject rfl
      have hcall : s.call (.addKey i t str probeAfter keyAfter) =
          some (.done, { pool := pool, objects := s.objects.set i (.keySet self') }) := by
        rw [call, if_neg (call_live hinv), hobject]
        dsimp only
        rw [hadd, Option.map_some]
      refine ⟨.done, _, hcall, ⟨⟨hsame.2.trans hlive, ?_⟩, ?_, ?_⟩, trivial⟩
      · show pool.refcnt.toNat = 1 + ((s.objects.set i (.keySet self')).map Object.references).sum
        rw [hsame.1, hrefs]
        exact hcount
      · intro o ho
        rcases List.mem_or_eq_of_mem_set ho with ho | rfl
        · exact hinv.complete o ho
        · exact hcomplete
      · intro set hset
        rcases List.mem_or_eq_of_mem_set hset with hset | heq
        · exact hinv.sound set hset
        · cases heq
          exact hsound

/-- Every call under its condition returns a complete object or `NULL` and keeps the count right,
and no other call does. -/
theorem call_cases (hinv : s.Inv) (c : Call) :
    s.Meets c ∧ s.Good c ∨ ¬ s.Meets c ∧ ¬ s.Keeps c := by
  cases c with
  | parserNew => exact parserNew_cases hinv
  | bufferNew => exact bufferNew_cases hinv
  | lexerNew => exact lexerNew_cases hinv
  | emitterNew => exact emitterNew_cases hinv
  | keySetNew => exact keySetNew_cases hinv
  | iterator i after => exact iterator_cases i after hinv
  | addKey i t str probeAfter keyAfter =>
    exact .inl ⟨trivial, addKey_good i t str probeAfter keyAfter hinv⟩
  | free i => exact .inl ⟨trivial, free_good i hinv⟩

/-- **One call** that meets its condition keeps the invariant of the history: this is the step of
the induction on it. -/
theorem Step.inv (hstep : s.Step s') (hinv : s.Inv) : s'.Inv := by
  obtain ⟨c, r, hmeets, hcall⟩ := hstep
  rcases call_cases hinv c with ⟨-, r', s'', hcall', hinv', -⟩ | ⟨hnot, -⟩
  · rw [hcall] at hcall'
    cases hcall'
    exact hinv'
  · exact absurd hmeets hnot

/-- A new pool. -/
theorem inv_new {grants : Nat → Bool} {pool : Pool} (h : Pool.newWithAlloc grants = some pool) :
    Inv { pool := pool } := by
  unfold Pool.newWithAlloc at h
  split at h
  · cases h
    exact ⟨⟨rfl, rfl⟩, fun _ ho => absurd ho List.not_mem_nil,
      fun _ hself => absurd hself List.not_mem_nil⟩
  · cases h

/-- **When construction on a pool keeps the count.** In every history of calls under their
conditions, on a new pool with any allocator, the reference count is one plus the references of the
live objects; and the next call, whatever it is, keeps the count right, frees nothing through `NULL`
and returns a complete object, or `NULL` with the count as it was, iff it meets its condition. Three
constructors break it: that of a parser frees a part that it does not have, that of a key set
returns a set without an array, and an iterator keeps its reference where it is not made. -/
theorem construction_keeps_iff {grants : Nat → Bool} {pool : Pool}
    (hpool : Pool.newWithAlloc grants = some pool)
    (hrun : Relation.ReflTransGen Step { pool := pool } s) :
    s.Counted ∧ ∀ c, s.Keeps c ↔ s.Meets c := by
  have hinv : s.Inv := by
    induction hrun with
    | refl => exact inv_new hpool
    | tail _ hstep ih => exact hstep.inv ih
  refine ⟨hinv.counted, fun c => ?_⟩
  rcases call_cases hinv c with ⟨hmeets, hgood⟩ | ⟨hmeets, hkeeps⟩
  · exact iff_of_true hgood.keeps hmeets
  · exact iff_of_false hkeeps hmeets

/-- A pool with one buffer, on which a lexer is made: the count is right behind the call. -/
theorem construction_keeps_example :
    Keeps { pool := { refcnt := 2, grants := fun _ => true, requests := 3 },
            objects := [.buffer { buffer := some 1024 }] } .lexerNew := by
  have hpool : Pool.newWithAlloc (fun _ => true) =
      some { grants := fun _ => true, requests := 1 } := rfl
  have hrun : Relation.ReflTransGen Step { pool := { grants := fun _ => true, requests := 1 } }
      { pool := { refcnt := 2, grants := fun _ => true, requests := 3 },
        objects := [.buffer { buffer := some 1024 }] } :=
    .single ⟨.bufferNew, _, fun _ => by decide, rfl⟩
  exact ((construction_keeps_iff hpool hrun).2 .lexerNew).mpr fun _ => by decide

/-- An allocator that stops behind the first block of a parser or a key set, and one that stops
behind that of an iterator. -/
theorem construction_keeps_fails :
    ¬ Keeps { pool := { grants := fun n => n < 2, requests := 1 } } .parserNew ∧
      ¬ Keeps { pool := { grants := fun n => n < 2, requests := 1 } } .keySetNew ∧
        ¬ Keeps { pool := { refcnt := 2, grants := fun n => n < 4, requests := 3 },
                  objects := [.keySet { array := some 5 }] } (.iterator 0 fun _ => []) := by
  refine ⟨?_, ?_, ?_⟩
  · rintro ⟨r, s', hcall, -⟩
    cases hcall
  · rintro ⟨r, s', hcall, -, hr⟩
    cases hcall
    exact hr rfl
  · rintro ⟨r, s', hcall, -, hr⟩
    cases hcall
    cases hr

end PoolState

end Eltn
