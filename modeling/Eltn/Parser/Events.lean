import Eltn.Parser.Run

/-!
# The events of the parser are well nested

The parser keeps no stack: it remembers the last event, the depth and `no_defs`. What may still
follow them (`MayFollow`) is a language of event sequences, and a move takes off it the event that
it reports (`Move.mayFollow`). So what the parser has reported can be completed to a document at any
time (`events_wellNested`).
-/

namespace Eltn

open ParserState

/-- The nonterminals of the event grammar. -/
inductive EventRule where
  | document | definitions | value | table | entries | entry

/-- The sequences of events that a rule stands for: the language that the events of a run are words
of. -/
inductive EventWord : EventRule → List Event → Prop
  | ofDefinitions {w : List Event} : EventWord .definitions w →
      EventWord .document (w ++ [.streamEnd])
  | ofTable {w : List Event} : EventWord .table w → EventWord .document (w ++ [.streamEnd])
  | noDefinition : EventWord .definitions []
  | definition {v w : List Event} : EventWord .value v → EventWord .definitions w →
      EventWord .definitions (.defName :: v ++ w)
  | scalar {e : Event} : e.isScalar → EventWord .value [e]
  | value {w : List Event} : EventWord .table w → EventWord .value w
  | table {w : List Event} : EventWord .entries w →
      EventWord .table (.tableStart :: w ++ [.tableEnd])
  | noEntry : EventWord .entries []
  | entries {v w : List Event} : EventWord .entry v → EventWord .entries w →
      EventWord .entries (v ++ w)
  | implicit {v : List Event} : EventWord .value v → EventWord .entry v
  | keyed {k : Event} {v : List Event} : k.isKey → k ≠ .defName → EventWord .value v →
      EventWord .entry (k :: v)

/-- What may follow a value at a depth, up to the end of the document: inside a table entries and
its end, once for each table that is open; outside the definitions that are left. -/
def MayFollowValue (noDefs : Bool) : Nat → List Event → Prop
  | 0, w =>
    if noDefs then w = [.streamEnd] else ∃ v, EventWord .definitions v ∧ w = v ++ [.streamEnd]
  | depth + 1, w =>
    ∃ v u, EventWord .entries v ∧ MayFollowValue noDefs depth u ∧ w = v ++ .tableEnd :: u

/-- What may follow an event, up to the end of the document: behind a key a value must come first.
-/
def MayFollow (e : Event) (depth : Nat) (noDefs : Bool) (w : List Event) : Prop :=
  if e = .streamStart then EventWord .document w
  else if e = .streamEnd then w = []
  else if e.isKey then ∃ v u, EventWord .value v ∧ MayFollowValue noDefs depth u ∧ w = v ++ u
  else MayFollowValue noDefs depth w

section
variable {last e : Event} {depth depth' : Nat} {noDefs noDefs' : Bool} {used : List Lexeme}
  {x : Lexeme} {v w : List Event}

/-- Behind a key there must follow a value, and then what may follow a value. -/
theorem mayFollow_isKey (h : e.isKey) : MayFollow e depth noDefs w ↔
    ∃ v u, EventWord .value v ∧ MayFollowValue noDefs depth u ∧ w = v ++ u := by
  have hne := Event.kind_ne (.inl h)
  rw [MayFollow, if_neg hne.2.2.1, if_neg hne.2.2.2, if_pos h]

/-- Behind a value, or an opening brace, there may follow what closes the tables that are open. -/
theorem mayFollow_value (h : e.endsValue ∨ e = .tableStart) :
    MayFollow e depth noDefs w ↔ MayFollowValue noDefs depth w := by
  have hne : e ≠ .streamStart ∧ e ≠ .streamEnd ∧ ¬ e.isKey = true := by
    rcases h with h | rfl
    · cases e <;> first | (cases h; done) | exact ⟨nofun, nofun, nofun⟩
    · exact ⟨nofun, nofun, nofun⟩
  rw [MayFollow, if_neg hne.1, if_neg hne.2.1, if_neg hne.2.2]

/-- An entry in front of what follows a value inside a table. -/
theorem MayFollowValue.entry (hv : EventWord .entry v) (hd : depth ≠ 0)
    (h : MayFollowValue noDefs depth w) : MayFollowValue noDefs depth (v ++ w) := by
  obtain ⟨depth, rfl⟩ := Nat.exists_eq_succ_of_ne_zero hd
  obtain ⟨v', u, hv', hu, rfl⟩ := h
  exact ⟨v ++ v', u, .entries hv hv', hu, by rw [List.append_assoc]⟩

/-- The end of a table in front of what follows the table. -/
theorem MayFollowValue.tableEnd (hd : depth ≠ 0) (h : MayFollowValue noDefs (depth - 1) w) :
    MayFollowValue noDefs depth (.tableEnd :: w) := by
  obtain ⟨depth, rfl⟩ := Nat.exists_eq_succ_of_ne_zero hd
  exact ⟨[], w, .noEntry, h, rfl⟩

/-- Something may always follow: the tables that are open can be closed. By recursion on the depth.
-/
theorem exists_mayFollowValue (noDefs : Bool) (depth : Nat) :
    ∃ w, MayFollowValue noDefs depth w := by
  induction depth with
  | zero =>
    cases noDefs with
    | true => exact ⟨_, rfl⟩
    | false => exact ⟨_, [], .noDefinition, rfl⟩
  | succ depth ih =>
    obtain ⟨u, hu⟩ := ih
    exact ⟨_, [], u, .noEntry, hu, rfl⟩

/-- Something may follow everywhere, so every listing is the front of a well-nested one. -/
theorem exists_mayFollow (e : Event) (depth : Nat) (noDefs : Bool) :
    ∃ w, MayFollow e depth noDefs w := by
  obtain ⟨u, hu⟩ := exists_mayFollowValue noDefs depth
  unfold MayFollow
  split
  · exact ⟨_, .ofDefinitions .noDefinition⟩
  split
  · exact ⟨[], rfl⟩
  split
  · exact ⟨_, [.valueNil], u, .scalar rfl, hu, rfl⟩
  · exact ⟨u, hu⟩

/-! ## Moves -/

/-- A value in front of what follows it is a value of the language, or the start of one, with what
may follow that behind it. -/
theorem IsValue.mayFollow (h : IsValue x depth e depth')
    (hd : e = .tableStart → depth + 1 < 2 ^ 32) (hw : MayFollow e depth' noDefs w) :
    ∃ v u, EventWord .value v ∧ MayFollowValue noDefs depth u ∧ e :: w = v ++ u := by
  cases h with
  | scalar hscalar =>
    have hs := scalarEvent_isScalar hscalar
    rw [mayFollow_value (.inl (by simp [Event.endsValue, hs]))] at hw
    exact ⟨[e], w, .scalar hs, hw, rfl⟩
  | table _ =>
    rw [mayFollow_value (.inr rfl), deeper_eq (hd rfl)] at hw
    obtain ⟨v, u, hv, hu, rfl⟩ := hw
    exact ⟨_, u, .value (.table hv), hu, by simp⟩

/-- An entry in front of what follows it is what may follow a value, or the start of a table, at the
depth. -/
theorem IsEntry.mayFollow (h : IsEntry depth used x e depth')
    (hd : e = .tableStart → depth + 1 < 2 ^ 32) (hne : depth ≠ 0)
    (hw : MayFollow e depth' noDefs w) : MayFollowValue noDefs depth (e :: w) := by
  have hkey : ∀ k : Event, k.isKey → k ≠ .defName → MayFollow k depth noDefs w →
      MayFollowValue noDefs depth (k :: w) := by
    intro k hk hdef hw
    obtain ⟨v, u, hv, hu, rfl⟩ := (mayFollow_isKey hk).mp hw
    exact hu.entry (.keyed hk hdef hv) hne
  cases h with
  | name _ => exact hkey _ rfl nofun hw
  | bracket _ hk _ =>
    refine hkey e (keyEvent_isKey hk) ?_ hw
    rintro rfl
    revert hk
    unfold keyEvent
    split <;> nofun
  | value hvalue =>
    obtain ⟨v, u, hv, hu, heq⟩ := hvalue.mayFollow hd hw
    rw [heq]
    exact hu.entry (.implicit hv) hne

/-- **A move reports the first event of what may follow**: with what may follow behind it, the event
itself may follow the one before. This is the step of the induction, from the last event backwards.
-/
theorem Move.mayFollow (h : Move last depth noDefs used x e depth' noDefs')
    (hd : e = .tableStart → depth + 1 < 2 ^ 32)
    (hstart : last = .streamStart → depth = 0 ∧ noDefs = false)
    (htable : last = .tableStart → depth ≠ 0) (hw : MayFollow e depth' noDefs' w) :
    MayFollow last depth noDefs (e :: w) := by
  cases h with
  | document _ =>
    obtain ⟨rfl, rfl⟩ := hstart rfl
    rw [mayFollow_value (.inr rfl)] at hw
    rw [show deeper 0 = 1 from rfl] at hw
    obtain ⟨v, u, hv, hu, rfl⟩ := hw
    obtain rfl : u = [.streamEnd] := hu
    have := EventWord.ofTable (.table hv)
    rw [MayFollow, if_pos rfl]
    simpa using this
  | definition hlast _ _ =>
    obtain ⟨v, u, hv, hu, rfl⟩ := (mayFollow_isKey rfl).mp hw
    rcases hlast with rfl | ⟨hends, rfl, rfl⟩
    · obtain ⟨rfl, rfl⟩ := hstart rfl
      obtain ⟨v', hv', rfl⟩ := hu
      have := EventWord.ofDefinitions (.definition hv hv')
      rw [MayFollow, if_pos rfl]
      simpa using this
    · obtain ⟨v', hv', rfl⟩ := hu
      rw [mayFollow_value (.inl hends)]
      exact ⟨_, .definition hv hv', by simp⟩
  | streamEnd hlast _ =>
    obtain rfl : w = [] := hw
    rcases hlast with rfl | ⟨hends, rfl⟩
    · exact .ofDefinitions .noDefinition
    · rw [mayFollow_value (.inl hends)]
      cases noDefs with
      | true => rfl
      | false => exact ⟨[], .noDefinition, rfl⟩
  | value hkey _ hvalue =>
    rw [mayFollow_isKey hkey]
    exact hvalue.mayFollow hd hw
  | firstEntry hentry =>
    rw [mayFollow_value (.inr rfl)]
    exact hentry.mayFollow hd (htable rfl) hw
  | entry hends hne _ hentry =>
    rw [mayFollow_value (.inl hends)]
    exact hentry.mayFollow hd hne hw
  | tableEnd hlast hne _ =>
    rw [mayFollow_value (.inl rfl)] at hw
    rw [mayFollow_value (by tauto)]
    exact hw.tableEnd hne
  | separatedTableEnd hends hne _ _ =>
    rw [mayFollow_value (.inl rfl)] at hw
    rw [mayFollow_value (.inl hends)]
    exact hw.tableEnd hne

end

/-! ## Runs -/

/-- What may follow the end of a run may follow its start, with the events of the run in front. By
induction on the run, move by move. -/
theorem Run.mayFollow {c c' : Config} {l : Listing} (h : Run c l c') (ht : c.Tame)
    {w : List Event} (hw : MayFollow c'.event c'.depth c'.noDefs w) :
    MayFollow c.event c.depth c.noDefs (l.map Prod.fst ++ w) := by
  induction h with
  | refl c => exact hw
  | move hmove _ ih =>
    exact hmove.mayFollow (ht.deeper_lt hmove) ht.start ht.table (ih (hmove.tame ht) hw)

/-- From the start of the stream the listing is completed to a document. -/
theorem Run.document {c : Config} {toks : List Lexeme} {l : Listing} {w : List Event}
    (h : Run ⟨.streamStart, 0, false, toks⟩ l c)
    (ht : Config.Tame ⟨.streamStart, 0, false, toks⟩)
    (hw : MayFollow c.event c.depth c.noDefs w) : EventWord .document (l.map Prod.fst ++ w) := by
  have hword := h.mayFollow ht hw
  rwa [MayFollow, if_pos rfl] at hword

/-- The events of up to `n` calls of `ELTN_Parser_next`. -/
def Parser.events {τ : Type} (ts : TokenSource τ) (n : Nat) (p : Parser τ) : List Event :=
  (p.reports ts n).map Prod.fst

namespace Parser

section
variable {s : Stream} {n : Nat}

/-- The nesting of a listing counts the tables that start and end. -/
theorem nesting_sum (l : Listing) : (nesting l).sum =
    ((l.map Prod.fst).count .tableStart : Int) - (l.map Prod.fst).count .tableEnd := by
  induction l with
  | nil => rfl
  | cons y l ih =>
    obtain ⟨e, t⟩ := y
    rw [nesting_cons, List.sum_append, ih, List.map_cons, List.count_cons, List.count_cons]
    cases e <;> simp [Event.brace] <;> omega

/-- Events without an error are all before the first error. -/
theorem takeWhile_events {l : Listing} {r : List Event} (h : ∀ y ∈ l, y.1 ≠ .error)
    (hr : r.takeWhile (· ≠ .error) = []) :
    (l.map Prod.fst ++ r).takeWhile (· ≠ .error) = l.map Prod.fst := by
  rw [List.takeWhile_append_of_pos, hr, List.append_nil]
  intro e he
  obtain ⟨y, hy, rfl⟩ := List.mem_map.mp he
  simpa using h y hy

/-- The events of a listing and of the error behind it begin a document. -/
theorem run_begins {c : Config} {toks : List Lexeme} {l : Listing} {r : List Event}
    (h : Run ⟨.streamStart, 0, false, toks⟩ l c)
    (ht : Config.Tame ⟨.streamStart, 0, false, toks⟩) (hr : r.takeWhile (· ≠ .error) = []) :
    ∃ w, EventWord .document w ∧ (l.map Prod.fst ++ r).takeWhile (· ≠ .error) <+: w := by
  obtain ⟨w, hw⟩ := exists_mayFollow c.event c.depth c.noDefs
  refine ⟨_, h.document ht hw, ?_⟩
  rw [takeWhile_events (h.event_ne (Nat.two_pow_pos 32)) hr]
  exact List.prefix_append _ _

/-- One call more than there are tokens is enough to reach an end. -/
theorem reports_ended {s : Stream} {n : Nat} {c : Config}
    (hrun : Run ⟨.streamStart, 0, false, s.significant ++ [s.final]⟩ ((new s).reports .stream n) c)
    (hat : ((new s).after .stream n).At c) (hn : s.rest.length + 1 ≤ n) :
    ((new s).after .stream n).hasNext = false := by
  by_contra hnext
  rw [Bool.not_eq_false] at hnext
  have hlen := hrun.length_le
  have htoks := hat.toks_eq
  rw [if_neg (hat.hasNext_iff.mp hnext)] at htoks
  have hsig : s.significant.length ≤ s.rest.length := List.length_filter_le _ _
  rw [reports_length .stream n hnext, htoks] at hlen
  simp only [List.length_append, List.length_singleton] at hlen
  omega

/-- **The events of the parser are well nested.** For every stream of fewer than 2³² tokens and
every number of calls of `ELTN_Parser_next` on a new parser: the events before an error can be
completed to a document, and are one when the end of the stream is reported; before an error the
depth is the number of tables that have started and not ended, and it is 0 at the end of the stream;
one call more than there are tokens reaches an end; and from an end on nothing changes that a caller
can see. -/
theorem events_wellNested (s : Stream) (hs : s.rest.length < 2 ^ 32) (n : Nat) :
    (∃ w, EventWord .document w ∧
        ((new s).events .stream n).takeWhile (· ≠ .error) <+: w) ∧
      (((new s).after .stream n).event = .streamEnd →
        EventWord .document ((new s).events .stream n)) ∧
      (((new s).after .stream n).event ≠ .error →
        ((new s).after .stream n).depth + ((new s).events .stream n).count .tableEnd =
          ((new s).events .stream n).count .tableStart) ∧
      (((new s).after .stream n).event = .streamEnd → ((new s).after .stream n).depth = 0) ∧
      (s.rest.length + 1 ≤ n → ((new s).after .stream n).hasNext = false) ∧
      (((new s).after .stream n).hasNext = false → ∀ k,
        observe ((new s).after .stream (n + k)).toParserState =
          observe ((new s).after .stream n).toParserState) := by
  have htame := new_tame (shallow_of_length hs)
  rcases reports_run n (new_at s) with ⟨herr, c', hrun, hat⟩ | ⟨herr, l, t, c', hl, hrun⟩
  · obtain ⟨htame', hsum⟩ := hrun.tame htame
    refine ⟨?_, ?_, ?_, ?_, reports_ended hrun hat, after_add_halted .stream⟩
    · have hbegins := run_begins (r := []) hrun htame rfl
      rwa [List.append_nil] at hbegins
    · intro hend
      rw [hat.event_eq] at hend
      have hword := hrun.document htame (w := []) (by rw [hend]; rfl)
      rwa [List.append_nil] at hword
    · intro _
      rw [hat.depth_eq]
      rw [nesting_sum] at hsum
      dsimp only at hsum
      rw [events]
      omega
    · intro hend
      rw [hat.event_eq] at hend
      rw [hat.depth_eq]
      exact htame'.ended hend
  · have hend : ((new s).after .stream n).hasNext = false := by
      rw [ParserState.hasNext, herr]
      rfl
    refine ⟨?_, ?_, fun h => absurd herr h, ?_, fun _ => hend, after_add_halted .stream⟩
    · rw [events, hl, List.map_append]
      exact run_begins hrun htame rfl
    · intro h; rw [herr] at h; cases h
    · intro h; rw [herr] at h; cases h

/-- The events of `{}`, up to the end of the stream. -/
theorem events_wellNested_example :
    let s : Stream := ⟨[⟨.curlyOpen, [0x7B], 1, 1⟩, ⟨.curlyClose, [0x7D], 1, 2⟩],
      ⟨.eof, [], 1, 3⟩, [], by decide, rfl⟩
    EventWord .document ((new s).events .stream 3) ∧ ((new s).after .stream 3).depth = 0 := by
  intro s
  have hend : ((new s).after .stream 3).event = .streamEnd := by decide
  have hwell := events_wellNested s (by decide) 3
  exact ⟨hwell.2.1 hend, hwell.2.2.2.1 hend⟩

end

end Parser

end Eltn
