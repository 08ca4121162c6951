import Eltn.Grammar

/-!
# The parser accepts the grammar

Every derivation is a run of the parser with its listing (`Derives.runs`), by induction on the
derivation. What a rule says for that (`Rule.Runs`) is stated for the place where its tokens stand:
the tokens in front of them that the same call reads, and any tokens behind them.
-/

namespace Eltn

open ParserState

/-! ## Places -/

/-- An entry may follow the event `last` at a depth; `pre` is the separator that the call reads,
none behind the brace that opens the table. -/
inductive EntryPlace : Event → Nat → List Lexeme → Prop
  | first {depth : Nat} : EntryPlace .tableStart depth []
  | next {last : Event} {depth : Nat} {sep : Lexeme} : last.endsValue → depth ≠ 0 →
      sep.isSeparator → EntryPlace last depth [sep]

/-- A value may follow the event `last` at a depth; `pre` are the tokens that the call reads before
it. -/
inductive ValuePlace : Event → Nat → List Lexeme → Prop
  | keyed {last : Event} {depth : Nat} {eq : Lexeme} : last.isKey → eq.token = .equals →
      ValuePlace last depth [eq]
  | implicit {last : Event} {depth : Nat} {pre : List Lexeme} : EntryPlace last depth pre →
      ValuePlace last depth pre

/-- A definition may follow the event `last` outside of tables. -/
def DefinitionPlace (last : Event) : Prop := last = .streamStart ∨ last.endsValue

section
variable {last e : Event} {depth depth' : Nat} {noDefs : Bool} {pre used toks rest : List Lexeme}
  {x : Lexeme} {l : Listing} {rule : Rule}

/-- An entry in a place where one may stand is a move. -/
theorem EntryPlace.move (hplace : EntryPlace last depth pre) (noDefs : Bool)
    (h : IsEntry depth used x e depth') :
    Move last depth noDefs (pre ++ used) x e depth' noDefs := by
  cases hplace with
  | first => exact .firstEntry h
  | next hlast hdepth hsep => exact .entry hlast hdepth hsep h

/-- A value in a place where one may stand is a move. -/
theorem ValuePlace.move (hplace : ValuePlace last depth pre) (noDefs : Bool)
    (h : IsValue x depth e depth') :
    Move last depth noDefs (pre ++ [x]) x e depth' noDefs := by
  cases hplace with
  | keyed hlast heq => exact .value hlast heq h
  | implicit hplace => exact hplace.move noDefs (.value h)

/-! ## Derivations run -/

/-- The last token is a semicolon. -/
def EndsInSemicolon (toks : List Lexeme) : Prop := ∃ toks' x, toks = toks' ++ [x] ∧ x.isSemicolon

/-- What a derivation from a rule means for the parser. The parts of a table behind its opening
brace are run up to the closing brace `c`; a definition is run up to its semicolon. -/
def Rule.Runs (rule : Rule) (toks : List Lexeme) (l : Listing) : Prop :=
  match rule with
  | .deflist | .definition => ∀ {last : Event} {semis rest : List Lexeme}, DefinitionPlace last →
      (∀ y ∈ semis, y.isSemicolon) → Config.Tame ⟨last, 0, false, semis ++ toks ++ rest⟩ →
      ∃ e semis', DefinitionPlace e ∧ (∀ y ∈ semis', y.isSemicolon) ∧
        (semis' = [] ↔ ¬ EndsInSemicolon (semis ++ toks)) ∧
        Run ⟨last, 0, false, semis ++ toks ++ rest⟩ l ⟨e, 0, false, semis' ++ rest⟩
  | .value => ∀ {last : Event} {depth : Nat} {noDefs : Bool} {pre rest : List Lexeme},
      ValuePlace last depth pre → Config.Tame ⟨last, depth, noDefs, pre ++ toks ++ rest⟩ →
      ∃ e, e.endsValue ∧
        Run ⟨last, depth, noDefs, pre ++ toks ++ rest⟩ l ⟨e, depth, noDefs, rest⟩
  | .table => ∃ o toks' l', toks = o :: toks' ∧ l = (.tableStart, o.text) :: l' ∧
      o.token = .curlyOpen ∧ ∀ {depth : Nat} {noDefs : Bool} {rest : List Lexeme},
        Config.Tame ⟨.tableStart, depth, noDefs, toks' ++ rest⟩ →
        Run ⟨.tableStart, depth, noDefs, toks' ++ rest⟩ l' ⟨.tableEnd, depth - 1, noDefs, rest⟩
  | .entrylist => ∀ {depth : Nat} {noDefs : Bool} {c : Lexeme} {rest : List Lexeme},
      c.token = .curlyClose → Config.Tame ⟨.tableStart, depth, noDefs, toks ++ c :: rest⟩ →
      Run ⟨.tableStart, depth, noDefs, toks ++ c :: rest⟩ (l ++ [(.tableEnd, c.text)])
        ⟨.tableEnd, depth - 1, noDefs, rest⟩
  | .entryRest => ∀ {last : Event} {depth : Nat} {noDefs : Bool} {c : Lexeme} {rest : List Lexeme},
      last.endsValue → depth ≠ 0 → c.token = .curlyClose →
      Config.Tame ⟨last, depth, noDefs, toks ++ c :: rest⟩ →
      Run ⟨last, depth, noDefs, toks ++ c :: rest⟩ (l ++ [(.tableEnd, c.text)])
        ⟨.tableEnd, depth - 1, noDefs, rest⟩
  | .entry => ∀ {last : Event} {depth : Nat} {noDefs : Bool} {pre rest : List Lexeme},
      EntryPlace last depth pre → Config.Tame ⟨last, depth, noDefs, pre ++ toks ++ rest⟩ →
      ∃ e, e.endsValue ∧
        Run ⟨last, depth, noDefs, pre ++ toks ++ rest⟩ l ⟨e, depth, noDefs, rest⟩
  | .key => ∃ x e, l = [(e, x.text)] ∧ e.isKey ∧ ∀ depth, IsEntry depth toks x e depth

/-- A table where a value may stand. -/
theorem tableRuns (h : Rule.Runs .table toks l) : Rule.Runs .value toks l := by
  intro last depth noDefs pre rest hplace htame
  obtain ⟨o, toks', l', rfl, rfl, hopen, hruns⟩ := h
  have hmove := hplace.move noDefs (.table hopen)
  rw [show pre ++ o :: toks' ++ rest = (pre ++ [o]) ++ (toks' ++ rest) by simp] at htame ⊢
  have hdepth : deeper depth = depth + 1 := deeper_eq (htame.deeper_lt hmove rfl)
  have hrun := hruns (hmove.tame htame)
  rw [hdepth, Nat.add_sub_cancel, ← hdepth] at hrun
  exact ⟨.tableEnd, rfl, .move hmove hrun⟩

/-- A key, its equals sign and its value, where an entry may stand. -/
theorem keyedRuns {k v : List Lexeme} {eq : Lexeme} {l ls : Listing} (hk : Rule.Runs .key k l)
    (heq : eq.token = .equals) (hv : Rule.Runs .value v ls) :
    Rule.Runs .entry (k ++ eq :: v) (l ++ ls) := by
  intro last depth noDefs pre rest hplace htame
  obtain ⟨x, e, rfl, hkey, hentry⟩ := hk
  have hmove := hplace.move noDefs (hentry depth)
  rw [show pre ++ (k ++ eq :: v) ++ rest = (pre ++ k) ++ ([eq] ++ v ++ rest) by simp] at htame ⊢
  obtain ⟨e', hends, hrun⟩ := hv (.keyed hkey heq) (hmove.tame htame)
  exact ⟨e', hends, .move hmove hrun⟩

/-- A name, its equals sign and its value, where a definition may stand, are run: the parser reports
the name and the value, and comes to the place behind a value. -/
theorem definitionRuns {eq : Lexeme} {v semis : List Lexeme} (hname : x.token = .name)
    (heq : eq.token = .equals) (hv : Rule.Runs .value v l) (hlast : DefinitionPlace last)
    (hsemis : ∀ y ∈ semis, y.isSemicolon)
    (htame : Config.Tame ⟨last, 0, false, semis ++ x :: eq :: v ++ rest⟩) :
    ∃ e, e.endsValue ∧ Run ⟨last, 0, false, semis ++ x :: eq :: v ++ rest⟩
      ((.defName, x.text) :: l) ⟨e, 0, false, rest⟩ := by
  have hmove : Move last 0 false (semis ++ [x]) x .defName 0 false :=
    .definition (hlast.imp id fun h => ⟨h, rfl, rfl⟩) hsemis hname
  rw [show semis ++ x :: eq :: v ++ rest = (semis ++ [x]) ++ ([eq] ++ v ++ rest) by simp]
    at htame ⊢
  obtain ⟨e, hends, hrun⟩ := hv (.keyed rfl heq) (hmove.tame htame)
  exact ⟨e, hends, .move hmove hrun⟩

/-- Whether tokens end in a semicolon is told by the last one. -/
theorem endsInSemicolon_append_singleton :
    EndsInSemicolon (toks ++ [x]) ↔ x.isSemicolon := by
  constructor
  · rintro ⟨toks', y, heq, hy⟩
    obtain ⟨-, hxy⟩ := List.append_inj' heq rfl
    rwa [List.singleton_inj.mp hxy]
  · exact fun h => ⟨toks, x, rfl, h⟩

/-- Semicolons end in a semicolon, unless there are none. -/
theorem endsInSemicolon_semis {semis : List Lexeme} (h : ∀ y ∈ semis, y.isSemicolon) :
    semis = [] ↔ ¬ EndsInSemicolon semis := by
  constructor
  · rintro rfl ⟨toks, x, heq, -⟩
    simp at heq
  · intro hnot
    rcases List.eq_nil_or_concat semis with rfl | ⟨semis', x, rfl⟩
    · rfl
    · rw [List.concat_eq_append, endsInSemicolon_append_singleton] at hnot
      exact absurd (h x (by simp)) hnot

/-- The end of a list depends on its second part, unless that is empty. -/
theorem endsInSemicolon_append (h : rest ≠ []) :
    EndsInSemicolon (toks ++ rest) ↔ EndsInSemicolon rest := by
  rcases List.eq_nil_or_concat rest with rfl | ⟨rest', x, rfl⟩
  · exact absurd rfl h
  · rw [List.concat_eq_append, ← List.append_assoc, endsInSemicolon_append_singleton,
      endsInSemicolon_append_singleton]

/-- **Derivations run.** From every place where a rule is expected the parser reports its listing,
by induction on the derivation: each rule says what its calls read, and in which place they leave
the parser. -/
theorem Derives.runs (h : Derives rule toks l) : rule.Runs toks l := by
  induction h with
  | noDefinition =>
    intro last semis rest hlast hsemis _
    refine ⟨last, semis, hlast, hsemis, ?_, by rw [List.append_nil]; exact .refl _⟩
    rw [List.append_nil]
    exact endsInSemicolon_semis hsemis
  | @deflist d ds l ls _ _ ih ihs =>
    intro last semis rest hlast hsemis htame
    rw [show semis ++ (d ++ ds) ++ rest = semis ++ d ++ (ds ++ rest) by simp] at htame ⊢
    obtain ⟨e, semis', hplace, hsemis', hends, hrun⟩ := ih hlast hsemis htame
    have htame' := (hrun.tame htame).1
    rw [← List.append_assoc] at htame'
    obtain ⟨e', semis'', hplace', hsemis'', hends', hrun'⟩ := ihs hplace hsemis' htame'
    rw [List.append_assoc] at hrun'
    refine ⟨e', semis'', hplace', hsemis'', hends'.trans (not_congr ?_), hrun.trans hrun'⟩
    rcases eq_or_ne ds [] with rfl | hds
    · rw [List.append_nil, List.append_nil, ← not_iff_not, ← hends,
        ← endsInSemicolon_semis hsemis']
    · rw [← List.append_assoc, endsInSemicolon_append hds, endsInSemicolon_append hds]
  | @definition x eq v l hname heq hv ih =>
    intro last semis rest hlast hsemis htame
    obtain ⟨e, hends, hrun⟩ := definitionRuns hname heq ih hlast hsemis htame
    refine ⟨e, [], .inr hends, nofun, ?_, hrun⟩
    obtain ⟨v', y, rfl, hy⟩ := hv.getLast_value
    rw [show semis ++ x :: eq :: (v' ++ [y]) = semis ++ x :: eq :: v' ++ [y] by simp,
      endsInSemicolon_append_singleton]
    exact ⟨fun _ => hy, fun _ => rfl⟩
  | @terminated x eq semi v l hname heq hv hsemi ih =>
    intro last semis rest hlast hsemis htame
    rw [show semis ++ (x :: eq :: v ++ [semi]) ++ rest =
      semis ++ x :: eq :: v ++ ([semi] ++ rest) by simp] at htame ⊢
    obtain ⟨e, hends, hrun⟩ := definitionRuns hname heq ih hlast hsemis htame
    refine ⟨e, [semi], .inr hends, by simpa using hsemi, ?_, hrun⟩
    rw [← List.append_assoc, endsInSemicolon_append_singleton]
    exact ⟨nofun, fun h => absurd hsemi h⟩
  | scalar hscalar =>
    intro last depth noDefs pre rest hplace _
    have hends := scalarEvent_isScalar hscalar
    exact ⟨_, by simp [Event.endsValue, hends], .single (hplace.move _ (.scalar hscalar))⟩
  | value _ ih => exact tableRuns ih
  | @emptyTable o c hopen hclose =>
    refine ⟨o, [c], _, rfl, rfl, hopen, ?_⟩
    intro depth noDefs rest htame
    exact .single (.tableEnd (.inl rfl) (htame.table rfl) hclose)
  | @table o c es l hopen _ hclose ih =>
    refine ⟨o, es ++ [c], _, rfl, rfl, hopen, ?_⟩
    intro depth noDefs rest htame
    rw [show es ++ [c] ++ rest = es ++ c :: rest by simp] at htame ⊢
    exact ih hclose htame
  | @entrylist v vs l ls _ _ ih ihs =>
    intro depth noDefs c rest hclose htame
    have hdepth : depth ≠ 0 := htame.table rfl
    rw [show v ++ vs ++ c :: rest = [] ++ v ++ (vs ++ c :: rest) by simp] at htame ⊢
    obtain ⟨e, hends, hrun⟩ := ih .first htame
    rw [List.append_assoc l]
    exact hrun.trans (ihs hends hdepth hclose (hrun.tame htame).1)
  | noEntry =>
    intro last depth noDefs c rest hlast hdepth hclose _
    exact .single (.tableEnd (.inr hlast) hdepth hclose)
  | separator hsep =>
    intro last depth noDefs c rest hlast hdepth hclose _
    exact .single (.separatedTableEnd hlast hdepth hsep hclose)
  | @entryRest sep v vs l ls hsep _ _ ih ihs =>
    intro last depth noDefs c rest hlast hdepth hclose htame
    rw [show sep :: v ++ vs ++ c :: rest = [sep] ++ v ++ (vs ++ c :: rest) by simp] at htame ⊢
    obtain ⟨e, hends, hrun⟩ := ih (.next hlast hdepth hsep) htame
    rw [List.append_assoc l]
    exact hrun.trans (ihs hends hdepth hclose (hrun.tame htame).1)
  | keyed _ heq _ ih ihs => exact keyedRuns ih heq ihs
  | implicit _ ih => exact fun hplace htame => ih (.implicit hplace) htame
  | @name x hname => exact ⟨x, .keyString, rfl, rfl, fun _ => .name hname⟩
  | @bracket o x c e hopen hkey hclose =>
    exact ⟨x, e, rfl, keyEvent_isKey hkey, fun _ => .bracket hopen hkey hclose⟩

end

end Eltn
