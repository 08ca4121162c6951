import Eltn.Parser.Events

/-!
# Documents

What an ELTN text stands for, apart from how it is written: a table, or a list of definitions, whose
values are tables and scalars. A document is told as a sequence of events, with the strings of
names, keys, numbers and strings (`Document.events`), and no two documents are told by the same
sequence (`Document.events_inj`).
-/

namespace Eltn

/-- A value that is no table. A number is the text that it is written with, as its value is for the
caller to compute; a string is what its literal stands for. -/
inductive Scalar where
  | nil
  | true
  | false
  | number (text : Bytes)
  | string (value : Bytes)
deriving DecidableEq, Repr

/-- A key of a table: a number, as it is written, or a string. Names are strings. -/
inductive EntryKey where
  | number (text : Bytes)
  | string (value : Bytes)
deriving DecidableEq, Repr

mutual

/-- A value. -/
inductive Value where
  | scalar (x : Scalar)
  | table (entries : Entries)

/-- The entries of a table, each with a key or without one. -/
inductive Entries where
  | nil
  | cons (key : Option EntryKey) (value : Value) (rest : Entries)

end

/-- A document. -/
inductive Document where
  | table (entries : Entries)
  | definitions (ds : List (Bytes × Value))

/-! ## Events -/

/-- The events whose string is a part of the document. That of the others is the text of their
token, which says nothing more than the event. -/
def Event.carries : Event → Bool
  | .defName | .keyString | .keyNumber | .keyInteger => true
  | .valueString | .valueNumber | .valueInteger => true
  | _ => false

/-- An event, with its string if that is a part of the document. -/
abbrev Report := Event × Bytes

/-- What an event and its string tell of the document. -/
def Event.report (e : Event) (string : Bytes) : Report := (e, if e.carries then string else [])

/-- The event of a scalar, with its string where it has one. -/
def Scalar.event : Scalar → Report
  | .nil => (.valueNil, [])
  | .true => (.valueTrue, [])
  | .false => (.valueFalse, [])
  | .number text => (.valueNumber, text)
  | .string value => (.valueString, value)

/-- The event of a key. -/
def EntryKey.event : EntryKey → Report
  | .number text => (.keyNumber, text)
  | .string value => (.keyString, value)

/-- The start of a table. -/
def tableStart : Report := (.tableStart, [])

/-- The end of a table. -/
def tableEnd : Report := (.tableEnd, [])

mutual

/-- The events of a value. -/
def Value.events : Value → List Report
  | .scalar x => [x.event]
  | .table entries => tableStart :: (entries.events ++ [tableEnd])

/-- The events of entries. -/
def Entries.events : Entries → List Report
  | .nil => []
  | .cons key value rest => key.toList.map EntryKey.event ++ value.events ++ rest.events

end

/-- The events of definitions. -/
def definitionEvents : List (Bytes × Value) → List Report
  | [] => []
  | d :: ds => (.defName, d.1) :: (d.2.events ++ definitionEvents ds)

/-- The events of a document, in front of the end of the stream. -/
def Document.events : Document → List Report
  | .table entries => (Value.table entries).events
  | .definitions ds => definitionEvents ds

/-! ## Telling documents apart -/

/-- Scalars are told apart by their events. -/
theorem Scalar.event_inj {x y : Scalar} (h : x.event = y.event) : x = y := by
  cases x <;> cases y <;> cases h <;> rfl

/-- Keys are told apart by their events. -/
theorem EntryKey.event_inj {x y : EntryKey} (h : x.event = y.event) : x = y := by
  cases x <;> cases y <;> cases h <;> rfl

/-- No scalar is told as the start of a table. -/
theorem Scalar.event_ne (x : Scalar) : x.event ≠ tableStart := by
  intro h
  cases x <;> cases h

/-- The first event of a value tells that there is no key in front of it and no end of a table. -/
theorem Value.events_cons (v : Value) : ∃ e t l, v.events = (e, t) :: l ∧ e ≠ .keyNumber ∧
    e ≠ .keyString ∧ e ≠ .tableEnd := by
  cases v with
  | scalar x => cases x <;> exact ⟨_, _, _, rfl, by simp⟩
  | table entries => exact ⟨_, _, _, rfl, by simp⟩

/-- A key and a value, in front of anything, are determined by their events: no event is that of a
key and of a value. -/
theorem keyed_inj {key key' : Option EntryKey} {v v' : Value} {r r' : List Report}
    (h : key.toList.map EntryKey.event ++ v.events ++ r =
      key'.toList.map EntryKey.event ++ v'.events ++ r') :
    key = key' ∧ v.events ++ r = v'.events ++ r' := by
  obtain ⟨e, t, l, hv, hnumber, hstring, -⟩ := v.events_cons
  obtain ⟨e', t', l', hv', hnumber', hstring', -⟩ := v'.events_cons
  rw [List.append_assoc, List.append_assoc] at h
  have hkey {k : EntryKey} {e : Event} {t : Bytes} (hne : e ≠ .keyNumber) (hne' : e ≠ .keyString) :
      k.event ≠ (e, t) := by
    rintro hk
    cases k <;> cases hk
    · exact hne rfl
    · exact hne' rfl
  cases key with
  | none =>
    cases key' with
    | none => exact ⟨rfl, h⟩
    | some k' =>
      rw [hv] at h
      exact absurd (List.cons.inj h).1.symm (hkey hnumber hstring)
  | some k =>
    cases key' with
    | none =>
      rw [hv'] at h
      exact absurd (List.cons.inj h).1 (hkey hnumber' hstring')
    | some k' =>
      obtain ⟨hk, hrest⟩ := List.cons.inj h
      exact ⟨by rw [EntryKey.event_inj hk], hrest⟩

/-- Entries do not start with the end of their table. -/
theorem Entries.events_cons (key : Option EntryKey) (v : Value) (rest : Entries)
    (r r' : List Report) :
    (Entries.cons key v rest).events ++ r ≠ tableEnd :: r' := by
  obtain ⟨e, t, l, hv, -, -, hend⟩ := v.events_cons
  rw [Entries.events, hv]
  intro h
  cases key with
  | none => exact hend (congrArg Prod.fst (List.cons.inj h).1)
  | some k =>
    have hk : k.event = tableEnd := (List.cons.inj h).1
    cases k <;> cases hk

mutual

/-- The events of a value, in front of anything, determine the value and what follows it. By
recursion on the value, together with its entries. -/
theorem Value.events_inj : ∀ {v v' : Value} {r r' : List Report},
    v.events ++ r = v'.events ++ r' → v = v' ∧ r = r'
  | .scalar x, .scalar y, r, r', h => by
    obtain ⟨hx, hr⟩ := List.cons.inj h
    exact ⟨by rw [Scalar.event_inj hx], hr⟩
  | .scalar x, .table es, r, r', h => absurd (List.cons.inj h).1 x.event_ne
  | .table es, .scalar y, r, r', h => absurd (List.cons.inj h).1.symm y.event_ne
  | .table es, .table es', r, r', h => by
    rw [Value.events, Value.events, List.cons_append, List.cons_append, List.append_assoc,
      List.append_assoc] at h
    obtain ⟨rfl, hr⟩ := Entries.events_inj (List.cons.inj h).2
    exact ⟨rfl, hr⟩

/-- The events of entries, in front of the end of their table, determine the entries and what
follows it. -/
theorem Entries.events_inj : ∀ {es es' : Entries} {r r' : List Report},
    es.events ++ tableEnd :: r = es'.events ++ tableEnd :: r' → es = es' ∧ r = r'
  | .nil, .nil, r, r', h => ⟨rfl, (List.cons.inj h).2⟩
  | .nil, .cons key v rest, r, r', h => absurd h.symm (Entries.events_cons key v rest _ _)
  | .cons key v rest, .nil, r, r', h => absurd h (Entries.events_cons key v rest _ _)
  | .cons key v rest, .cons key' v' rest', r, r', h => by
    rw [Entries.events, Entries.events, List.append_assoc _ rest.events,
      List.append_assoc _ rest'.events] at h
    obtain ⟨rfl, hvalue⟩ := keyed_inj h
    obtain ⟨rfl, hrest⟩ := Value.events_inj hvalue
    obtain ⟨rfl, hr⟩ := Entries.events_inj hrest
    exact ⟨rfl, hr⟩

end

/-- Definitions are told apart by their events, one after the other: a name starts each of them. -/
theorem definitionEvents_inj : ∀ {ds ds' : List (Bytes × Value)},
    definitionEvents ds = definitionEvents ds' → ds = ds'
  | [], [], _ => rfl
  | [], _ :: _, h => by cases h
  | _ :: _, [], h => by cases h
  | (name, v) :: ds, (name', v') :: ds', h => by
    obtain ⟨hname, hrest⟩ := List.cons.inj h
    obtain ⟨rfl, hds⟩ := Value.events_inj hrest
    rw [definitionEvents_inj hds, show name = name' from congrArg Prod.snd hname]

/-- **Documents are told apart by their events**: a caller that sees the events and their strings
can build the document from them. -/
theorem Document.events_inj {d d' : Document} (h : d.events = d'.events) : d = d' := by
  have htable : ∀ (es : Entries) (ds : List (Bytes × Value)),
      (Document.table es).events ≠ (Document.definitions ds).events := by
    intro es ds h
    cases ds with
    | nil => cases h
    | cons d ds => cases (List.cons.inj h).1
  cases d with
  | table es =>
    cases d' with
    | table es' =>
      obtain ⟨heq, -⟩ := Value.events_inj (congrArg (· ++ []) h)
      injection heq with heq
      rw [heq]
    | definitions ds => exact absurd h (htable es ds)
  | definitions ds =>
    cases d' with
    | table es => exact absurd h.symm (htable es ds)
    | definitions ds' => rw [definitionEvents_inj h]

end Eltn
