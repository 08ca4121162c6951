import Eltn.Parser.Errors
import Eltn.Parser.Residual

/-!
# The documents that the parser accepts

A document that starts with a brace is accepted exactly if it is a table of the grammar, as long as
its tables nest less than 2³² deep: at that depth `depth` wraps around (`table_accepted_iff`). A
list of definitions is accepted exactly if, moreover, it does not end in a semicolon: behind
semicolons `expect_new_definition` leaves its caller with a token that is no end of the input
(`deflist_accepted_iff`).
-/

namespace Eltn

open ParserState

namespace Parser

section
variable {s : Stream} {n : Nat} {l : Listing} {toks : List Lexeme}

/-- The configuration of a new parser. -/
def start (s : Stream) : Config := ⟨.streamStart, 0, false, s.significant ++ [s.final]⟩

/-- A new parser reports a listing, one event a call, and then the end of the stream. -/
def Emits (s : Stream) (l : Listing) : Prop :=
  (new s).reports .stream (l.length + 1) = l ++ [(.streamEnd, s.final.text)] ∧
    ((new s).after .stream (l.length + 1)).event = .streamEnd

/-- A parser that reaches the end of the stream has made a run through all tokens. -/
theorem run_of_streamEnd (h : ((new s).after .stream n).event = .streamEnd) :
    ∃ c, Run (start s) ((new s).reports .stream n) c ∧ c.event = .streamEnd ∧ c.toks = [] := by
  rcases reports_run n (new_at s) with ⟨-, c, hrun, hat⟩ | ⟨herr, -⟩
  · have hend : c.event = .streamEnd := hat.event_eq.symm.trans h
    refine ⟨c, hrun, hend, ?_⟩
    rw [hat.toks_eq, if_pos hend]
  · rw [herr] at h
    cases h

/-- A run to the end of the stream is reported. -/
theorem emits_of_run {c : Config} (h : Run (start s) (l ++ [(.streamEnd, s.final.text)]) c)
    (hc : c.event = .streamEnd) : Emits s l := by
  obtain ⟨hreports, hat⟩ := run_reports h (new_at s)
  rw [List.length_append, List.length_singleton] at hreports hat
  exact ⟨hreports, hat.event_eq.trans hc⟩

/-- A document whose braces match is only accepted if its tables nest less than 2³² deep: no table
can end where the depth has wrapped around to zero. -/
theorem shallow_of_streamEnd (h : ((new s).after .stream n).event = .streamEnd)
    (hsum : (braces s.significant).sum = 0) : Shallow s.significant := by
  obtain ⟨c, hrun, -, hnil⟩ := run_of_streamEnd h
  have hbraces := hrun.braces_eq
  have hfinal : s.final.brace = none := Lexeme.brace_of_ne s.final_token ⟨nofun, nofun⟩
  rw [hnil, start, braces_append, braces_cons, hfinal] at hbraces
  simp only [Option.toList_none, braces, List.filterMap_nil, List.append_nil] at hbraces
  by_contra hdeep
  obtain ⟨ys, zs, hys, hsum'⟩ := Walk.exists_step_down
    (fun z hz => (braces_bounds z hz).2) hdeep (by rw [hsum]; decide)
  refine hrun.step_down (Nat.two_pow_pos 32) (hbraces.symm.trans hys) ?_
  show (2 ^ 32 : Int) ∣ 0 + ys.sum
  rw [hsum']

/-- The end of the stream, where it may be reported. -/
theorem streamEnd_run {last : Event} {noDefs : Bool}
    (hlast : last = .streamStart ∨ (last.endsValue ∧ 0 = 0)) :
    Run ⟨last, 0, noDefs, [s.final]⟩ [(.streamEnd, s.final.text)] ⟨.streamEnd, 0, noDefs, []⟩ :=
  .single (.streamEnd hlast s.final_token)

/-! ## Tables -/

/-- A table is run up to the end of the stream, which is reported behind its listing. -/
theorem table_emits (hs : Shallow s.significant) (h : Derives .table s.significant l) :
    Emits s l := by
  have htame := new_tame hs
  obtain ⟨o, toks, l', htoks, rfl, hopen, hruns⟩ := h.runs
  rw [htoks] at htame
  have hmove : Move .streamStart 0 false [o] o .tableStart 1 true := .document hopen
  have hrun := Run.move hmove (hruns (hmove.tame htame))
  have hend : Run ⟨.tableEnd, 0, true, [s.final]⟩ [(.streamEnd, s.final.text)]
      ⟨.streamEnd, 0, true, []⟩ := streamEnd_run (.inr ⟨rfl, rfl⟩)
  refine emits_of_run (c := ⟨.streamEnd, 0, true, []⟩) ?_ rfl
  have hall := hrun.trans hend
  rw [start, htoks]
  exact hall

/-- **Documents with a table.** Let the first token that is no comment be a brace, and let the
tables nest less than 2³² deep. Then a new parser reaches the end of the stream exactly if the
tokens that are no comments are a table of the grammar; and then it reports the listing of that
table, one event a call, each with the text of its token. The depth is an `unsigned int`, and 2³²
open tables are none to it. -/
theorem table_accepted_iff (s : Stream)
    (hfirst : (s.significant.head?.map (·.token)) = some .curlyOpen)
    (hs : Shallow s.significant) :
    ((∃ n, ((new s).after .stream n).event = .streamEnd) ↔ ∃ l, Derives .table s.significant l) ∧
      ∀ l, Derives .table s.significant l → Emits s l := by
  refine ⟨⟨?_, ?_⟩, fun l h => table_emits hs h⟩
  · rintro ⟨n, hn⟩
    obtain ⟨c, hrun, hend, hnil⟩ := run_of_streamEnd hn
    have hremains := hrun.remains (new_tame hs) hend hnil
    have hfirst' : (s.significant ++ [s.final]).head?.map (·.token) = some .curlyOpen := by
      cases hsig : s.significant with
      | nil => rw [hsig] at hfirst; cases hfirst
      | cons x toks => rw [hsig] at hfirst; exact hfirst
    rw [start, Remains, if_pos rfl, if_pos hfirst'] at hremains
    generalize hall : s.significant ++ [s.final] = all at hremains
    generalize (new s).reports .stream n = l at hremains
    obtain ⟨htable, -⟩ := hremains
    obtain ⟨rfl, -⟩ := List.append_inj' hall rfl
    exact ⟨_, htable⟩
  · rintro ⟨l, h⟩
    exact ⟨_, (table_emits hs h).2⟩

/-- The table `{ x = { } }`, with a comment: its events are told, and the comment is passed over. -/
theorem table_accepted_example :
    let s : Stream := ⟨[⟨.curlyOpen, [0x7B], 1, 1⟩, ⟨.comment, [0x2D, 0x2D], 1, 2⟩,
      ⟨.name, [0x78], 2, 1⟩, ⟨.equals, [0x3D], 2, 2⟩, ⟨.curlyOpen, [0x7B], 2, 3⟩,
      ⟨.curlyClose, [0x7D], 2, 4⟩, ⟨.curlyClose, [0x7D], 2, 5⟩], ⟨.eof, [], 2, 6⟩, [],
      by decide, rfl⟩
    Emits s [(.tableStart, [0x7B]), (.keyString, [0x78]), (.tableStart, [0x7B]),
      (.tableEnd, [0x7D]), (.tableEnd, [0x7D])] := by
  intro s
  have hs : Shallow s.significant := shallow_of_length (by decide)
  have hvalue : Derives .value [⟨.curlyOpen, [0x7B], 2, 3⟩, ⟨.curlyClose, [0x7D], 2, 4⟩]
      [(.tableStart, [0x7B]), (.tableEnd, [0x7D])] := .value (.emptyTable rfl rfl)
  have hentry := Derives.keyed (.name (x := ⟨.name, [0x78], 2, 1⟩) rfl)
    (show (⟨.equals, [0x3D], 2, 2⟩ : Lexeme).token = .equals from rfl) hvalue
  have htable := Derives.table (o := ⟨.curlyOpen, [0x7B], 1, 1⟩)
    (c := ⟨.curlyClose, [0x7D], 2, 5⟩) rfl (.entrylist hentry .noEntry) rfl
  exact (table_accepted_iff s rfl hs).2 _ htable

/-! ## Tables that nest too deep -/

/-- `n` tables, each inside the one before, as a stream of `n` opening and `n` closing braces. -/
def nested (n : Nat) : Stream where
  rest :=
    List.replicate n ⟨.curlyOpen, [0x7B], 1, 1⟩ ++ List.replicate n ⟨.curlyClose, [0x7D], 1, 1⟩
  final := ⟨.eof, [], 1, 1⟩
  token_ne x hx := by
    rcases List.mem_append.mp hx with hx | hx <;> rw [List.eq_of_mem_replicate hx] <;>
      exact ⟨nofun, nofun⟩
  final_token := rfl

/-- The tokens of tables in tables are as many opening and as many closing braces. -/
theorem nested_significant (n : Nat) : (nested n).significant =
    List.replicate n ⟨.curlyOpen, [0x7B], 1, 1⟩ ++
      List.replicate n ⟨.curlyClose, [0x7D], 1, 1⟩ := by
  refine List.filter_eq_self.mpr fun x hx => ?_
  rcases List.mem_append.mp hx with hx | hx <;> rw [List.eq_of_mem_replicate hx] <;> rfl

/-- Tables in tables derive, however many there are. -/
theorem nested_derives (n : Nat) : ∃ l, Derives .table (nested (n + 1)).significant l := by
  induction n with
  | zero => exact ⟨_, .emptyTable rfl rfl⟩
  | succ n ih =>
    obtain ⟨l, h⟩ := ih
    have hsucc : (nested (n + 1 + 1)).significant = ⟨.curlyOpen, [0x7B], 1, 1⟩ ::
        (nested (n + 1)).significant ++ [⟨.curlyClose, [0x7D], 1, 1⟩] := by
      rw [nested_significant, nested_significant, List.replicate_succ,
        List.replicate_succ' (n := n + 1)]
      simp
    have htable := Derives.table (o := ⟨.curlyOpen, [0x7B], 1, 1⟩)
      (c := ⟨.curlyClose, [0x7D], 1, 1⟩) rfl (.entrylist (.implicit (.value h)) .noEntry) rfl
    rw [List.append_nil, ← hsucc] at htable
    exact ⟨_, htable⟩

/-- From 2³² tables on they are not shallow. -/
theorem nested_deep {n : Nat} (hn : 2 ^ 32 ≤ n) : ¬ Shallow (nested n).significant := by
  intro h
  rw [Shallow, nested_significant, braces_append, Walk.below_append] at h
  have hbraces : braces (List.replicate n ⟨.curlyOpen, [0x7B], 1, 1⟩) = List.replicate n 1 :=
    List.filterMap_replicate_of_some rfl
  have hlt := h.2.lt
  rw [hbraces, List.sum_replicate] at hlt
  simp at hlt
  omega

/-- With 2³² tables each inside the one before, a table of the grammar is not accepted. Its depth is
zero where all of them are open. -/
theorem table_accepted_fails :
    ((nested (2 ^ 32)).significant.head?.map (·.token)) = some .curlyOpen ∧
      (∃ l, Derives .table (nested (2 ^ 32)).significant l) ∧
      ∀ n, ((new (nested (2 ^ 32))).after .stream n).event ≠ .streamEnd := by
  obtain ⟨k, hk⟩ : ∃ k : Nat, 2 ^ 32 = k + 1 := ⟨2 ^ 32 - 1, by omega⟩
  have hdeep := nested_deep (n := 2 ^ 32) le_rfl
  rw [hk] at hdeep ⊢
  obtain ⟨l, hderives⟩ := nested_derives k
  refine ⟨?_, ⟨l, hderives⟩, fun n hn => ?_⟩
  · rw [nested_significant, List.replicate_succ]
    rfl
  · exact hdeep (shallow_of_streamEnd hn hderives.balanced)

/-! ## Definitions -/

/-- Definitions are run up to the semicolons at their end. -/
theorem deflist_run (hs : Shallow s.significant) (h : Derives .deflist s.significant l) :
    ∃ e semis, DefinitionPlace e ∧ (∀ y ∈ semis, y.isSemicolon) ∧
      (semis = [] ↔ ¬ EndsInSemicolon s.significant) ∧
      Run (start s) l ⟨e, 0, false, semis ++ [s.final]⟩ :=
  have hnone : ∀ y ∈ ([] : List Lexeme), y.isSemicolon := nofun
  h.runs (.inl rfl) hnone (new_tame hs)

/-- Definitions that end in no semicolon are run up to the end of the stream. -/
theorem deflist_emits (hs : Shallow s.significant) (h : Derives .deflist s.significant l)
    (hends : ¬ EndsInSemicolon s.significant) : Emits s l := by
  obtain ⟨e, semis, hplace, -, hnil, hrun⟩ := deflist_run hs h
  obtain rfl := hnil.mpr hends
  exact emits_of_run (hrun.trans (streamEnd_run (hplace.imp id fun h => ⟨h, rfl⟩))) rfl

/-- Behind a semicolon at its end, a list of definitions is in error. -/
theorem deflist_error (hs : Shallow s.significant) (h : Derives .deflist s.significant l)
    (hends : EndsInSemicolon s.significant) :
    ((new s).after .stream (l.length + 1)).event = .error := by
  obtain ⟨e, semis, hplace, hsemis, hnil, hrun⟩ := deflist_run hs h
  obtain ⟨-, hat⟩ := run_reports hrun (new_at s)
  have hsucc : (new s).after .stream (l.length + 1) =
      ((new s).after .stream l.length).next .stream :=
    Function.iterate_succ_apply' _ _ _
  rw [hsucc]
  refine next_of_stale hat (.definition ?_ (fun hsemis => hnil.mp hsemis hends) hsemis
    (.inl s.final_token))
  exact hplace.imp id fun h => ⟨h, rfl, rfl⟩

/-- **Lists of definitions.** A list of definitions of the grammar is reported, one event a call and
then the end of the stream, exactly if it ends in no semicolon and its tables nest less than 2³²
deep. And a document that does not start with a brace and reaches the end of the stream is a list of
definitions without its top-level semicolons, exactly if its tables nest less than 2³² deep. A
semicolon behind the last definition is an error, since the token behind it is not looked at for the
end of the input. -/
theorem deflist_accepted_iff (s : Stream) :
    (∀ l, Derives .deflist s.significant l →
      (Emits s l ↔ ¬ EndsInSemicolon s.significant ∧ Shallow s.significant)) ∧
    ((s.significant.head?.map (·.token)) ≠ some .curlyOpen →
      ∀ n, ((new s).after .stream n).event = .streamEnd →
        ((∃ l, Derives .deflist (dropTopSemis 0 s.significant) l) ↔ Shallow s.significant)) := by
  constructor
  · intro l h
    constructor
    · intro hemits
      have hs := shallow_of_streamEnd hemits.2 h.balanced
      refine ⟨fun hends => ?_, hs⟩
      have herr := deflist_error hs h hends
      rw [hemits.2] at herr
      cases herr
    · exact fun ⟨hends, hs⟩ => deflist_emits hs h hends
  · intro hfirst n hn
    constructor
    · rintro ⟨l, h⟩
      refine shallow_of_streamEnd hn ?_
      rw [← braces_dropTopSemis s.significant 0]
      exact h.balanced
    · intro hs
      obtain ⟨c, hrun, hend, hnil⟩ := run_of_streamEnd hn
      have hremains := hrun.remains (new_tame hs) hend hnil
      have hfirst' : (s.significant ++ [s.final]).head?.map (·.token) ≠ some .curlyOpen := by
        cases hsig : s.significant with
        | nil => simp [s.final_token]
        | cons x toks => rw [hsig] at hfirst; exact hfirst
      rw [start, Remains, if_pos rfl, if_neg hfirst'] at hremains
      generalize hall : s.significant ++ [s.final] = all at hremains
      generalize (new s).reports .stream n = l at hremains
      obtain ⟨hloose, -⟩ := hremains
      obtain ⟨rfl, -⟩ := List.append_inj' hall rfl
      exact ⟨_, hloose⟩

/-- The definitions `a = 1; b = { }`: a semicolon may stand between two of them. -/
theorem deflist_accepted_example :
    let s : Stream := ⟨[⟨.name, [0x61], 1, 1⟩, ⟨.equals, [0x3D], 1, 3⟩, ⟨.number, [0x31], 1, 5⟩,
      ⟨.semicolon, [0x3B], 1, 6⟩, ⟨.name, [0x62], 2, 1⟩, ⟨.equals, [0x3D], 2, 3⟩,
      ⟨.curlyOpen, [0x7B], 2, 5⟩, ⟨.curlyClose, [0x7D], 2, 6⟩], ⟨.eof, [], 2, 7⟩, [],
      by decide, rfl⟩
    Emits s [(.defName, [0x61]), (.valueNumber, [0x31]), (.defName, [0x62]),
      (.tableStart, [0x7B]), (.tableEnd, [0x7D])] := by
  intro s
  have hfirst := Derives.terminated (x := ⟨.name, [0x61], 1, 1⟩) rfl
    (show (⟨.equals, [0x3D], 1, 3⟩ : Lexeme).token = .equals from rfl)
    (.scalar (x := ⟨.number, [0x31], 1, 5⟩) rfl)
    (show (⟨.semicolon, [0x3B], 1, 6⟩ : Lexeme).isSemicolon from rfl)
  have hsecond := Derives.definition (x := ⟨.name, [0x62], 2, 1⟩) rfl
    (show (⟨.equals, [0x3D], 2, 3⟩ : Lexeme).token = .equals from rfl)
    (.value (.emptyTable (o := ⟨.curlyOpen, [0x7B], 2, 5⟩)
      (c := ⟨.curlyClose, [0x7D], 2, 6⟩) rfl rfl))
  have hderives := Derives.deflist hfirst (.deflist hsecond .noDefinition)
  have hends : ¬ EndsInSemicolon s.significant := by
    rw [show s.significant = s.significant.dropLast ++ [⟨.curlyClose, [0x7D], 2, 6⟩] from rfl,
      endsInSemicolon_append_singleton]
    decide
  exact ((deflist_accepted_iff s).1 _ hderives).mpr ⟨hends, shallow_of_length (by decide)⟩

/-- The definition `a = 1;` derives from the grammar and is in error at the end of the input. It
never comes to the end of the stream. -/
theorem deflist_accepted_fails :
    let s : Stream := ⟨[⟨.name, [0x61], 1, 1⟩, ⟨.equals, [0x3D], 1, 3⟩, ⟨.number, [0x31], 1, 5⟩,
      ⟨.semicolon, [0x3B], 1, 6⟩], ⟨.eof, [], 1, 7⟩, [], by decide, rfl⟩
    Derives .deflist s.significant [(.defName, [0x61]), (.valueNumber, [0x31])] ∧
      ((new s).after .stream 3).event = .error ∧
      ∀ n, ((new s).after .stream n).event ≠ .streamEnd := by
  intro s
  have hdef := Derives.terminated (x := ⟨.name, [0x61], 1, 1⟩) rfl
    (show (⟨.equals, [0x3D], 1, 3⟩ : Lexeme).token = .equals from rfl)
    (.scalar (x := ⟨.number, [0x31], 1, 5⟩) rfl)
    (show (⟨.semicolon, [0x3B], 1, 6⟩ : Lexeme).isSemicolon from rfl)
  have herr : ((new s).after .stream 3).event = .error := by decide
  exact ⟨.deflist hdef .noDefinition, herr, event_ne_streamEnd .stream herr⟩

end

end Parser

end Eltn
