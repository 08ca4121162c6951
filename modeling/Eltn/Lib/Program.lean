import Mathlib.Tactic.Common

/-!
# Programs over operations

A program is a tree of calls of operations, which goes on with what each call replies; what the
operations do is left to a handler (`Program.run`). So one program can be run on several states. A
relation that the handlers keep is kept by the runs, until the first state leaves it for good
(`run_until`). In which order a program calls its operations is a matter of the tree alone: a
monitor watches them (`Program.Obeys`), and a run keeps what the operations keep where the monitor
allows them (`run_obeys`).
-/

/-- A program that calls operations. -/
inductive Program {Op : Type} (Reply : Op → Type) (α : Type) where
  | pure (a : α)
  | call (op : Op) (next : Reply op → Program Reply α)

namespace Program

variable {Op : Type} {Reply : Op → Type} {α β σ σ' : Type}

/-- One program after another. -/
def bind : Program Reply α → (α → Program Reply β) → Program Reply β
  | .pure a, f => f a
  | .call op next, f => .call op fun r => (next r).bind f

instance : Monad (Program Reply) where
  pure := .pure
  bind := .bind

/-- The program of one operation. -/
def op (op : Op) : Program Reply (Reply op) := .call op .pure

/-! ## Runs -/

/-- What the operations do to a state. An operation without a result is an error. -/
abbrev Handler {Op : Type} (Reply : Op → Type) (σ : Type) : Type :=
  (op : Op) → σ → Option (Reply op × σ)

/-- The run of a program from a state. -/
def run (h : Handler Reply σ) : Program Reply α → σ → Option (α × σ)
  | .pure a, s => some (a, s)
  | .call op next, s => (h op s).bind fun reply => (next reply.1).run h reply.2

section
variable (h : Handler Reply σ) (s : σ)

/-- A program that only gives a value leaves the state alone. -/
@[simp] theorem run_pure (a : α) : run h (Pure.pure a : Program Reply α) s = some (a, s) := rfl

/-- The run of one operation is what the handler says. -/
@[simp] theorem run_op (o : Op) : run h (op o : Program Reply (Reply o)) s = h o s := by
  rw [op, run]
  cases h o s <;> rfl

/-- A program behind another one runs from the state that the first has left, with its result. -/
@[simp] theorem run_bind (p : Program Reply α) (f : α → Program Reply β) :
    run h (p >>= f) s = (run h p s).bind fun out => run h (f out.1) out.2 := by
  change run h (p.bind f) s = _
  induction p generalizing s with
  | pure a => rfl
  | call o next ih =>
    simp only [bind, run, Option.bind_assoc]
    congr 1
    funext reply
    exact ih reply.1 reply.2

/-- A choice between programs is run as the one chosen. -/
@[simp] theorem run_ite (c : Prop) [Decidable c] (p q : Program Reply α) :
    run h (if c then p else q) s = if c then run h p s else run h q s := by
  split <;> rfl

end

/-! ## Relations between runs -/

section
variable {h : Handler Reply σ} {h' : Handler Reply σ'} {s : σ} {s' : σ'}

/-- **Runs keep an assertion** that every operation keeps: if each operation has an outcome from a
state with it, so has every program. -/
theorem run_keeps {E : σ → Prop} (hkeep : ∀ o s, E s → ∃ r t, h o s = some (r, t) ∧ E t)
    (p : Program Reply α) (hs : E s) : ∃ a t, p.run h s = some (a, t) ∧ E t := by
  induction p generalizing s with
  | pure a => exact ⟨a, s, rfl, hs⟩
  | call o next ih =>
    obtain ⟨r, t, hcall, ht⟩ := hkeep o s hs
    rw [run, hcall]
    exact ih r ht

/-- **Runs keep a relation until one of them leaves it for good.** If every operation keeps the
relation `R`, with the same reply, or takes the first state to one of `E`, and no operation leads
out of `E`, then so does every program. -/
theorem run_until {R : σ → σ' → Prop} {E : σ → Prop}
    (hstep : ∀ o s s', R s s' → ∃ r t, h o s = some (r, t) ∧
      (E t ∨ ∃ t', h' o s' = some (r, t') ∧ R t t'))
    (hkeep : ∀ o s, E s → ∃ r t, h o s = some (r, t) ∧ E t) (p : Program Reply α) (hs : R s s') :
    ∃ a t, p.run h s = some (a, t) ∧ (E t ∨ ∃ t', p.run h' s' = some (a, t') ∧ R t t') := by
  induction p generalizing s s' with
  | pure a => exact ⟨a, s, rfl, .inr ⟨s', rfl, hs⟩⟩
  | call o next ih =>
    obtain ⟨r, t, hcall, ht | ⟨t', hcall', ht⟩⟩ := hstep o s s' hs
    · obtain ⟨a, u, hrun, hu⟩ := run_keeps hkeep (next r) ht
      rw [run, hcall]
      exact ⟨a, u, hrun, .inl hu⟩
    · rw [run, run, hcall, hcall']
      exact ih r ht

end

/-! ## Monitors -/

/-- A monitor watches the operations that a program calls: it has a state of its own, the operations
that it allows in a state, and the state behind an operation and its reply. -/
structure Monitor {Op : Type} (Reply : Op → Type) (A : Type) where
  Allows : A → Op → Prop
  next : A → (op : Op) → Reply op → A

/-- Every operation that the program calls is allowed where it is called, whatever the replies are;
the result and the state of the monitor at the end satisfy `done`. -/
def Obeys {A : Type} (m : Monitor Reply A) (done : α → A → Prop) : Program Reply α → A → Prop
  | .pure x, a => done x a
  | .call op next, a => m.Allows a op ∧ ∀ r, (next r).Obeys m done (m.next a op r)

section
variable {A : Type} {m : Monitor Reply A} {a : A} {mid : α → A → Prop} {done : β → A → Prop}
  {p : Program Reply α} {f : α → Program Reply β}

/-- A program without operations obeys if what it gives is done. -/
@[simp] theorem obeys_pure (y : β) :
    (Pure.pure y : Program Reply β).Obeys m done a ↔ done y a := Iff.rfl

/-- One operation must be allowed, and done whatever the reply is. -/
@[simp] theorem obeys_op (o : Op) {done : Reply o → A → Prop} :
    (op o : Program Reply (Reply o)).Obeys m done a ↔
      m.Allows a o ∧ ∀ r, done r (m.next a o r) := Iff.rfl

/-- An operation and what follows: it is allowed, and what follows obeys behind every reply. -/
@[simp] theorem obeys_op_bind (o : Op) (f : Reply o → Program Reply β) :
    (op o >>= f).Obeys m done a ↔
      m.Allows a o ∧ ∀ r, (f r).Obeys m done (m.next a o r) := Iff.rfl

/-- **One program behind another.** What holds behind the first is what the second may assume,
whatever value it was given. -/
theorem Obeys.bind (hp : p.Obeys m mid a) (hf : ∀ x b, mid x b → (f x).Obeys m done b) :
    (p >>= f).Obeys m done a := by
  change (p.bind f).Obeys m done a
  induction p generalizing a with
  | pure x => exact hf x a hp
  | call o next ih => exact ⟨hp.1, fun r => ih r (hp.2 r)⟩

/-- A weaker condition on the end is met as well. -/
theorem Obeys.mono {mid' : α → A → Prop} (hp : p.Obeys m mid a)
    (hmid : ∀ x b, mid x b → mid' x b) : p.Obeys m mid' a := by
  induction p generalizing a with
  | pure x => exact hmid x a hp
  | call o next ih => exact ⟨hp.1, fun r => ih r (hp.2 r)⟩

/-- **A run keeps what the allowed operations keep**, an assertion on the state of the monitor and
that of the run. -/
theorem run_obeys {J : A → σ → Prop} {h : Handler Reply σ} {s t : σ} {x : α}
    (hJ : ∀ a o s r t, J a s → m.Allows a o → h o s = some (r, t) → J (m.next a o r) t)
    (hp : p.Obeys m mid a) (hs : J a s) (hrun : p.run h s = some (x, t)) :
    ∃ b, mid x b ∧ J b t := by
  induction p generalizing a s with
  | pure y =>
    obtain ⟨rfl, rfl⟩ := Prod.mk.inj (Option.some.inj hrun)
    exact ⟨a, hp, hs⟩
  | call o next ih =>
    obtain ⟨reply, hcall, hrun⟩ := Option.bind_eq_some_iff.mp hrun
    exact ih reply.1 (hp.2 reply.1) (hJ a o s reply.1 reply.2 hs hp.1 hcall) hrun

end

end Program
