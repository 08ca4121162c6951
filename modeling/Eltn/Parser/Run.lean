import Eltn.Parser.Move

/-!
# Runs of the parser

A `Run` is a sequence of moves on a configuration of the parser, with the events and texts it
reports. `Parser.reports` is what the parser itself reports, called while it has a next event; up to
an error it is a run (`reports_run`), and every run is reported (`run_reports`).
-/

namespace Eltn

open ParserState

/-! ## Runs -/

/-- Events with their texts. -/
abbrev Listing := List (Event × Bytes)

/-- What the next call depends on: the last event, the depth, `no_defs` and the tokens left that are
not comments, with the end of the input behind them. -/
structure Config where
  event : Event
  depth : Nat
  noDefs : Bool
  toks : List Lexeme

/-- Calls that report the events and texts of a listing, one move each, from one configuration to
another. -/
inductive Run : Config → Listing → Config → Prop
  | refl (c : Config) : Run c [] c
  | move {last e : Event} {depth depth' : Nat} {noDefs noDefs' : Bool} {used toks : List Lexeme}
      {x : Lexeme} {l : Listing} {c : Config} : Move last depth noDefs used x e depth' noDefs' →
      Run ⟨e, depth', noDefs', toks⟩ l c →
      Run ⟨last, depth, noDefs, used ++ toks⟩ ((e, x.text) :: l) c

namespace Run

/-- Runs are made one behind the other. -/
theorem trans {c c' c'' : Config} {l l' : Listing} (h : Run c l c') (h' : Run c' l' c'') :
    Run c (l ++ l') c'' := by
  induction h with
  | refl c => exact h'
  | move hmove _ ih => exact .move hmove (ih h')

/-- A run of one call. -/
theorem single {last e : Event} {depth depth' : Nat} {noDefs noDefs' : Bool}
    {used toks : List Lexeme} {x : Lexeme} (h : Move last depth noDefs used x e depth' noDefs') :
    Run ⟨last, depth, noDefs, used ++ toks⟩ [(e, x.text)] ⟨e, depth', noDefs', toks⟩ :=
  .move h (.refl _)

end Run

/-! ## Nesting in runs -/

/-- The nesting of tables in a listing, as a walk. -/
def nesting (l : Listing) : List Int := l.filterMap (·.1.brace)

/-- The nesting of a listing is walked event by event. -/
theorem nesting_cons (e : Event) (t : Bytes) (l : Listing) :
    nesting ((e, t) :: l) = e.brace.toList ++ nesting l := by
  rw [nesting, List.filterMap_cons]
  cases e.brace <;> rfl

/-- The tables of the tokens nest less than 2³² deep. -/
def Shallow (toks : List Lexeme) : Prop := Walk.Below (2 ^ 32) 0 (braces toks)

/-- A configuration where the depth is the number of open tables: it has room for the braces left,
and it fits the last event. -/
structure Config.Tame (c : Config) : Prop where
  room : Walk.Below (2 ^ 32) c.depth (braces c.toks)
  start : c.event = .streamStart → c.depth = 0 ∧ c.noDefs = false
  table : c.event = .tableStart → c.depth ≠ 0
  ended : c.event = .streamEnd → c.depth = 0

section
variable {last e : Event} {depth depth' : Nat} {noDefs noDefs' : Bool} {used toks : List Lexeme}
  {x : Lexeme} {l : Listing} {c c' : Config}

/-- Where the tokens left nest less than 2³² deep, the depth does not wrap around at the next table.
-/
theorem Config.Tame.deeper_lt (ht : Config.Tame ⟨last, depth, noDefs, used ++ toks⟩)
    (h : Move last depth noDefs used x e depth' noDefs') :
    e = .tableStart → depth + 1 < 2 ^ 32 := by
  rintro rfl
  have hroom := ht.room
  rw [braces_append, h.braces_eq] at hroom
  have hlt : (depth : Int) + 1 < 2 ^ 32 := hroom.2.lt
  omega

/-- A move keeps the depth the number of open tables, and leaves room for the braces behind it, so
that the counter does not wrap around. -/
theorem Move.tame (h : Move last depth noDefs used x e depth' noDefs')
    (ht : Config.Tame ⟨last, depth, noDefs, used ++ toks⟩) :
    Config.Tame ⟨e, depth', noDefs', toks⟩ := by
  have hdepth := h.depth_eq (ht.deeper_lt h)
  have hroom := ht.room
  dsimp only at hroom
  rw [braces_append, h.braces_eq, Walk.below_append, ← hdepth] at hroom
  have hlt := hroom.1.lt
  refine ⟨hroom.2, ?_, ?_, ?_⟩
  · exact fun he => absurd he (h.bounds (by omega)).2.2.2
  · rintro rfl
    have hsum : (depth' : Int) = depth + 1 := hdepth
    dsimp only
    omega
  · rintro rfl
    exact h.depth_streamEnd fun hs => (ht.start hs).1

/-- A run keeps a configuration tame, and the depth follows the events. -/
theorem Run.tame (h : Run c l c') (ht : c.Tame) :
    c'.Tame ∧ (c'.depth : Int) = c.depth + (nesting l).sum := by
  induction h with
  | refl c => exact ⟨ht, (Int.add_zero _).symm⟩
  | move hmove _ ih =>
    obtain ⟨ht', hsum⟩ := ih (hmove.tame ht)
    refine ⟨ht', ?_⟩
    rw [hsum, nesting_cons, List.sum_append, ← Int.add_assoc, hmove.depth_eq (ht.deeper_lt hmove)]

/-- The braces among the tokens of a run are those of its events. -/
theorem Run.braces_eq (h : Run c l c') : braces c.toks = nesting l ++ braces c'.toks := by
  induction h with
  | refl c => rfl
  | move hmove _ ih => rw [braces_append, hmove.braces_eq, ih, nesting_cons, List.append_assoc]

/-- No table ends where the number of open tables is a multiple of 2³²: the counter is zero there,
and the parser takes itself to be outside of all tables. -/
theorem Run.step_down (h : Run c l c') (hd : c.depth < 2 ^ 32) {ys zs : List Int}
    (hl : nesting l = ys ++ -1 :: zs) : ¬ (2 ^ 32 : Int) ∣ c.depth + ys.sum := by
  induction h generalizing ys with
  | refl c => simp [nesting] at hl
  | @move last e depth depth' noDefs noDefs' used toks x l c hmove _ ih =>
    have hmod := hmove.depth_mod
    have ih := @ih (hmove.bounds hd).1
    dsimp only at hd ih ⊢
    rw [nesting_cons] at hl
    cases hbrace : e.brace with
    | none =>
      rw [hbrace, Option.toList_none, List.nil_append] at hl
      rw [hbrace, Option.toList_none, List.sum_nil] at hmod
      have := ih hl
      omega
    | some z =>
      rw [hbrace, Option.toList_some, List.singleton_append] at hl
      rw [hbrace, Option.toList_some, List.sum_singleton] at hmod
      cases ys with
      | nil =>
        obtain rfl : z = -1 := (List.cons.inj hl).1
        have hne := hmove.depth_ne hbrace
        rw [List.sum_nil]
        omega
      | cons y ys =>
        obtain ⟨rfl, htail⟩ := List.cons.inj hl
        have := ih htail
        rw [List.sum_cons]
        omega

/-- A run uses a token for every event. -/
theorem Run.length_le (h : Run c l c') : l.length + c'.toks.length ≤ c.toks.length := by
  induction h with
  | refl c => simp
  | move hmove _ ih =>
    have := List.length_pos_iff.mpr hmove.used_ne.1
    simp only [List.length_cons, List.length_append] at *
    omega

/-- A run reports no error. -/
theorem Run.event_ne (h : Run c l c') (hd : c.depth < 2 ^ 32) : ∀ y ∈ l, y.1 ≠ .error := by
  induction h with
  | refl c => nofun
  | move hmove _ ih =>
    obtain ⟨hlt, -, herr, -⟩ := hmove.bounds hd
    exact List.forall_mem_cons.mpr ⟨herr, ih hlt⟩

end

namespace Parser

/-- The events of up to `n` calls of `ELTN_Parser_next`, with their texts, while
`ELTN_Parser_has_next` is true. -/
def reports {τ : Type} (ts : TokenSource τ) : Nat → Parser τ → Listing
  | 0, _ => []
  | n + 1, p =>
    if p.hasNext then ((p.next ts).event, (p.next ts).textValue) :: reports ts n (p.next ts)
    else []

/-- The parser is in a configuration: its event, its depth and the tokens left are those of the
configuration, comments not counted. -/
structure At (p : Parser Stream) (c : Config) : Prop where
  event_eq : p.event = c.event
  depth_eq : p.depth = c.depth
  noDefs_eq : p.noDefs = c.noDefs
  toks_eq : c.toks =
    if c.event = .streamEnd then [] else p.lexer.significant ++ [p.lexer.final]
  depth_lt : c.depth < 2 ^ 32
  event_ne : c.event ≠ .comment ∧ c.event ≠ .error

section
variable {p : Parser Stream} {c c' : Config} {last e : Event} {depth depth' : Nat}
  {noDefs noDefs' : Bool} {used toks : List Lexeme} {x : Lexeme} {l : Listing}

/-- A new parser stands in front of all tokens, at depth zero. -/
theorem new_at (s : Stream) :
    (Parser.new s).At ⟨.streamStart, 0, false, s.significant ++ [s.final]⟩ :=
  ⟨rfl, rfl, rfl, rfl, Nat.two_pow_pos 32, nofun, nofun⟩

/-- Fewer than 2³² tokens nest less than 2³² deep. -/
theorem shallow_of_length {s : Stream} (hs : s.rest.length < 2 ^ 32) : Shallow s.significant := by
  have hle : (braces s.significant).length ≤ s.significant.length := List.length_filterMap_le _ _
  have hle' : s.significant.length ≤ s.rest.length := List.length_filter_le _ _
  exact Walk.below_of_length (fun z hz => (braces_bounds z hz).1) (by omega)

/-- A new parser on tokens that nest less than 2³² deep is in a tame configuration. -/
theorem new_tame {s : Stream} (hs : Shallow s.significant) :
    Config.Tame ⟨.streamStart, 0, false, s.significant ++ [s.final]⟩ where
  room := by
    have hfinal : s.final.brace = none := Lexeme.brace_of_ne s.final_token ⟨nofun, nofun⟩
    rw [braces_append, braces_cons, hfinal]
    exact (List.append_nil (braces s.significant)).symm ▸ hs
  start _ := ⟨rfl, rfl⟩
  table := nofun
  ended := nofun

/-- The parser after an event is where the move of its step leads. The fields are those that
`next_follows` gives, and the tokens left are those behind the ones read. -/
theorem next_at (h : p.At c) (hc : c.event ≠ .streamEnd)
    (hstep : step p.lexer.final c.depth c.noDefs p.lexer.significant c.event =
      .moved e depth noDefs x used)
    (hmove : Move c.event c.depth c.noDefs used x e depth noDefs) (hr : used ++ toks = c.toks) :
    (p.next .stream).At ⟨e, depth, noDefs, toks⟩ ∧ (p.next .stream).text = some x.text := by
  obtain ⟨last, depth₀, noDefs₀, toks₀⟩ := c
  obtain ⟨rfl, rfl, rfl, htoks, hlt, hcomment, herr⟩ := h
  dsimp only at htoks hlt hcomment herr hc hstep hmove hr
  rw [if_neg hc] at htoks
  have hfollows := next_follows p hcomment hlt
  rw [hstep] at hfollows
  obtain ⟨hevent, hdepth, hdefs, htext, hreads⟩ := hfollows
  obtain ⟨hlt', hcomment', herr', -⟩ := hmove.bounds hlt
  refine ⟨⟨hevent, hdepth, hdefs, ?_, hlt', hcomment', herr'⟩, htext⟩
  dsimp only
  rw [hreads.significant_eq, hreads.final_eq]
  exact hmove.rest_eq (fun y hy => (p.lexer.token_ne y (List.mem_filter.mp hy).1).1)
    p.lexer.final_token (hr.trans htoks)

/-- A call reports an event, or an error: in the first case it has made a move. -/
theorem next_moves (h : p.At c) (hc : c.event ≠ .streamEnd) :
    (∃ used x e depth noDefs toks, Move c.event c.depth c.noDefs used x e depth noDefs ∧
      c.toks = used ++ toks ∧ (p.next .stream).At ⟨e, depth, noDefs, toks⟩ ∧
      (p.next .stream).text = some x.text) ∨ (p.next .stream).event = .error := by
  have htoks : c.toks = p.lexer.significant ++ [p.lexer.final] := by rw [h.toks_eq, if_neg hc]
  have hfollows := next_follows p (by rw [h.event_eq]; exact h.event_ne.1)
    (by rw [h.depth_eq]; exact h.depth_lt)
  rw [h.depth_eq, h.noDefs_eq, h.event_eq] at hfollows
  cases hstep : step p.lexer.final c.depth c.noDefs p.lexer.significant c.event with
  | halted => exact absurd hstep (step_ne_halted ⟨h.event_ne.1, hc, h.event_ne.2⟩)
  | failed code t before =>
    rw [hstep] at hfollows
    exact .inr hfollows.1
  | moved e depth noDefs x used =>
    obtain ⟨hmove, toks, hr⟩ := step_moved p.lexer.final_token hstep
    obtain ⟨hat, htext⟩ := next_at h hc hstep hmove (hr.trans htoks.symm)
    exact .inl ⟨used, x, e, depth, noDefs, toks, hmove, htoks.trans hr.symm, hat, htext⟩

/-- Every move is made by the call where its tokens stand next. The step on the tokens that stand
next is this move (`Move.step_eq`), so that `next_at` applies. -/
theorem next_of_move (h : p.At ⟨last, depth, noDefs, used ++ toks⟩)
    (hmove : Move last depth noDefs used x e depth' noDefs') :
    (p.next .stream).At ⟨e, depth', noDefs', toks⟩ ∧ (p.next .stream).text = some x.text := by
  have hlast : last ≠ .streamEnd := hmove.last_ne.1
  have htoks : used ++ toks = p.lexer.significant ++ [p.lexer.final] := by
    have := h.toks_eq
    rwa [if_neg hlast] at this
  have hne : ∀ y ∈ p.lexer.significant, y.token ≠ .eof :=
    fun y hy => (p.lexer.token_ne y (List.mem_filter.mp hy).1).1
  refine next_at h hlast ?_ hmove rfl
  have hrest := hmove.rest_eq hne p.lexer.final_token htoks
  rcases eq_or_ne e .streamEnd with rfl | he
  · rw [if_pos rfl] at hrest
    rw [hrest, List.append_nil] at htoks
    cases hmove with
    | streamEnd hends _ =>
      rw [← List.nil_append [_]] at htoks
      obtain ⟨hsig, hx⟩ := List.append_inj' htoks rfl
      obtain rfl := List.singleton_inj.mp hx
      rw [← hsig]
      exact step_streamEnd p.lexer.final_token hends
    | value _ _ hvalue => exact absurd rfl hvalue.ne_streamEnd
    | firstEntry hentry => exact absurd rfl hentry.ne_streamEnd
    | entry _ _ _ hentry => exact absurd rfl hentry.ne_streamEnd
  · rw [if_neg he] at hrest
    rw [hrest, ← List.append_assoc] at htoks
    rw [← List.append_cancel_right htoks]
    exact hmove.step_eq _ he

/-- What a caller can ask of the parser: the event, the text, the string, the depth, and the code,
the line and the column of an error. -/
def observe (s : ParserState) : Event × Bytes × Bytes × Nat × Error × Nat × Nat :=
  (s.event, s.textValue, s.stringValue, s.depth, s.errcode, s.errline, s.errcolumn)

/-- At an end, a call changes no field but `last_event`; it still reads a token. -/
theorem next_halted {τ : Type} (ts : TokenSource τ) {p : Parser τ} (h : p.hasNext = false) :
    (p.next ts).toParserState = { p.toParserState with lastEvent := p.event } := by
  have hend : p.event = .streamEnd ∨ p.event = .error := by
    by_contra hne
    rw [not_or] at hne
    simp [ParserState.hasNext, hne.1, hne.2] at h
  have hcomment : p.event ≠ .comment := by rcases hend with h | h <;> rw [h] <;> nofun
  rw [next, if_pos hcomment]
  rcases hend with he | he
  · simp only [nextToken, update, he]
  · simp only [nextToken, update, he]

/-- Calls are counted from the first. -/
theorem after_succ {τ : Type} (ts : TokenSource τ) (p : Parser τ) (n : Nat) :
    p.after ts (n + 1) = (p.next ts).after ts n := Function.iterate_succ_apply _ _ _

/-- At an end, nothing that a caller can see changes any more. -/
theorem after_halted {τ : Type} (ts : TokenSource τ) (n : Nat) : ∀ {p : Parser τ},
    p.hasNext = false → observe (p.after ts n).toParserState = observe p.toParserState := by
  induction n with
  | zero => exact fun _ => rfl
  | succ n ih =>
    intro p h
    have hnext : (p.next ts).hasNext = false := by rw [next_halted ts h]; exact h
    rw [after_succ, ih hnext, next_halted ts h]
    rfl

/-- Behind the last event of the parser nothing changes that a caller can ask for. -/
theorem after_add_halted {τ : Type} (ts : TokenSource τ) {p : Parser τ} {n : Nat}
    (h : (p.after ts n).hasNext = false) (k : Nat) :
    observe (p.after ts (n + k)).toParserState = observe (p.after ts n).toParserState := by
  have hadd : p.after ts (n + k) = (p.after ts n).after ts k := by
    rw [after, Nat.add_comm, Function.iterate_add_apply]
    rfl
  rw [hadd, after_halted ts k h]

/-- A parser that has reported an error never reports the end of the stream. -/
theorem event_ne_streamEnd {τ : Type} (ts : TokenSource τ) {p : Parser τ} {n : Nat}
    (h : (p.after ts n).event = .error) (m : Nat) : (p.after ts m).event ≠ .streamEnd := by
  intro hm
  have heq : (p.after ts n).event = (p.after ts m).event := by
    rcases Nat.le_total n m with hle | hle
    · obtain ⟨k, rfl⟩ := Nat.exists_eq_add_of_le hle
      have hno : (p.after ts n).hasNext = false := by rw [ParserState.hasNext, h]; rfl
      exact (congrArg (·.1) (after_add_halted ts hno k)).symm
    · obtain ⟨k, rfl⟩ := Nat.exists_eq_add_of_le hle
      have hno : (p.after ts m).hasNext = false := by rw [ParserState.hasNext, hm]; rfl
      exact congrArg (·.1) (after_add_halted ts hno k)
  rw [h, hm] at heq
  cases heq

/-- Where there is no next event there is none behind any number of calls. -/
theorem hasNext_after {τ : Type} (ts : TokenSource τ) {p : Parser τ} (h : p.hasNext = false)
    (n : Nat) : (p.after ts n).hasNext = false := by
  have hevent : (p.after ts n).event = p.event := congrArg (·.1) (after_halted ts n h)
  rwa [ParserState.hasNext, hevent]

/-- While there is a next event, every call has reported one. -/
theorem reports_length {τ : Type} (ts : TokenSource τ) (n : Nat) : ∀ {p : Parser τ},
    (p.after ts n).hasNext = true → (p.reports ts n).length = n := by
  induction n with
  | zero => exact fun _ => rfl
  | succ n ih =>
    intro p h
    cases hp : p.hasNext with
    | true =>
      rw [after_succ] at h
      rw [reports, if_pos hp, List.length_cons, ih h]
    | false =>
      rw [hasNext_after ts hp] at h
      cases h

/-- There is a next event exactly where the last one is not the end of the stream. -/
theorem At.hasNext_iff (h : p.At c) : p.hasNext = true ↔ c.event ≠ .streamEnd := by
  rw [ParserState.hasNext, h.event_eq]
  simp [h.event_ne.2]

/-- A parser that has reached the end of its stream stays there, over any number of calls. -/
theorem At.after_streamEnd (n : Nat) : ∀ {p : Parser Stream}, p.At c → c.event = .streamEnd →
    (p.after .stream n).At c := by
  induction n with
  | zero => exact fun h _ => h
  | succ n ih =>
    intro p h hc
    have hnext := next_halted .stream (p := p) (by
      rw [Bool.eq_false_iff, Ne, h.hasNext_iff]
      exact fun hne => hne hc)
    rw [after_succ]
    refine ih ⟨?_, ?_, ?_, ?_, h.depth_lt, h.event_ne⟩ hc
    · rw [hnext]; exact h.event_eq
    · rw [hnext]; exact h.depth_eq
    · rw [hnext]; exact h.noDefs_eq
    · have htoks := h.toks_eq
      rw [if_pos hc] at htoks ⊢
      exact htoks

/-- **What the parser reports is a run**, up to an error, which ends the reports. By induction on
the number of calls. By induction on the number of calls: a call that does not fail is one move
(`next_moves`), and behind the end or an error nothing happens. -/
theorem reports_run (n : Nat) : ∀ {p : Parser Stream} {c : Config}, p.At c →
    ((p.after .stream n).event ≠ .error ∧
      ∃ c', Run c (p.reports .stream n) c' ∧ (p.after .stream n).At c') ∨
    ((p.after .stream n).event = .error ∧
      ∃ l t c', p.reports .stream n = l ++ [(.error, t)] ∧ Run c l c') := by
  induction n with
  | zero =>
    intro p c h
    refine .inl ⟨?_, c, .refl c, h⟩
    show p.event ≠ .error
    rw [h.event_eq]
    exact h.event_ne.2
  | succ n ih =>
    intro p c h
    rcases eq_or_ne c.event .streamEnd with hc | hc
    · have hend := At.after_streamEnd (n + 1) h hc
      have hno : ¬ p.hasNext = true := by rw [h.hasNext_iff]; exact fun hne => hne hc
      rw [reports, if_neg hno]
      refine .inl ⟨?_, c, .refl c, hend⟩
      rw [hend.event_eq]
      exact hend.event_ne.2
    rw [reports, if_pos (h.hasNext_iff.mpr hc), after_succ]
    rcases next_moves h hc with ⟨used, x, e, depth, noDefs, toks, hmove, htoks, hat, htext⟩ | herr
    · have hrep : ((p.next .stream).event, (p.next .stream).textValue) = (e, x.text) := by
        rw [hat.event_eq, textValue, htext]
        rfl
      obtain ⟨last, depth₀, noDefs₀, toks₀⟩ := c
      obtain rfl : toks₀ = used ++ toks := htoks
      rw [hrep]
      rcases ih hat with ⟨hne, c', hrun, hat'⟩ | ⟨herr, l, t, c', hl, hrun⟩
      · exact .inl ⟨hne, c', .move hmove hrun, hat'⟩
      · exact .inr ⟨herr, (e, x.text) :: l, t, c', by rw [hl]; rfl, .move hmove hrun⟩
    · have hno : (p.next .stream).hasNext = false := by
        rw [ParserState.hasNext, herr]
        rfl
      have hobs := congrArg (·.1) (after_halted .stream n hno)
      have hnil : (p.next .stream).reports .stream n = [] := by
        cases n with
        | zero => rfl
        | succ n => rw [reports, if_neg (by rw [hno]; nofun)]
      exact .inr ⟨hobs.trans herr, [], _, c, by rw [hnil, herr]; rfl, .refl c⟩

/-- **Every run is reported**, call by call, and leads the parser where the run ends. By induction
on the run. -/
theorem run_reports (h : Run c l c') : ∀ {p : Parser Stream}, p.At c →
    p.reports .stream l.length = l ∧ (p.after .stream l.length).At c' := by
  induction h with
  | refl c => exact fun h => ⟨rfl, h⟩
  | @move last e depth depth' noDefs noDefs' used toks x l c hmove _ ih =>
    intro p hp
    obtain ⟨hat, htext⟩ := next_of_move hp hmove
    obtain ⟨hreports, hat'⟩ := ih hat
    have hrep : ((p.next .stream).event, (p.next .stream).textValue) = (e, x.text) := by
      rw [hat.event_eq, textValue, htext]
      rfl
    rw [List.length_cons, reports, if_pos (hp.hasNext_iff.mpr hmove.last_ne.1), hrep, hreports,
      after_succ]
    exact ⟨rfl, hat'⟩

end

end Parser

end Eltn
