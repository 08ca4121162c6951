import Eltn.Parser.Accepts

/-!
# What the parser accepts derives from the grammar

What may remain of a document behind an event (`Remains`) is a matter of the grammar: the rest of
every table that is open, then the rest of the definitions. A move takes its tokens and its event
off that (`Move.remains`), so a run to the end of the stream has read a document (`Run.remains`).
-/

namespace Eltn

open ParserState

/-- The tokens end with the end of the input, and the listing with the event for it. -/
inductive Ends (P : List Lexeme → Listing → Prop) : List Lexeme → Listing → Prop
  | mk {toks : List Lexeme} {l : Listing} {t : Lexeme} : P toks l → t.token = .eof →
      Ends P (toks ++ [t]) (l ++ [(.streamEnd, t.text)])

/-- Definitions, with semicolons anywhere between them. -/
def LooseDefinitions (toks : List Lexeme) (l : Listing) : Prop :=
  Derives .deflist (dropTopSemis 0 toks) l

/-- Nothing. -/
def Nothing (toks : List Lexeme) (l : Listing) : Prop := toks = [] ∧ l = []

/-- The tokens are a part of a table from `P`, the closing brace of the table, and a rest from
`Q`. -/
inductive Closes (P Q : List Lexeme → Listing → Prop) : List Lexeme → Listing → Prop
  | mk {toks rest : List Lexeme} {l ls : Listing} {c : Lexeme} : P toks l → c.token = .curlyClose →
      Q rest ls → Closes P Q (toks ++ c :: rest) (l ++ (.tableEnd, c.text) :: ls)

/-- What may remain behind a value at a depth. -/
def RemainsAfterValue (noDefs : Bool) : Nat → List Lexeme → Listing → Prop
  | 0 => Ends (if noDefs then Nothing else LooseDefinitions)
  | depth + 1 => Closes (Derives .entryRest) (RemainsAfterValue noDefs depth)

/-- The tokens are a value or an entry, and a rest that may remain behind a value. -/
def Leads (rule : Rule) (noDefs : Bool) (depth : Nat) (toks : List Lexeme) (l : Listing) : Prop :=
  ∃ v rest lv ls, Derives rule v lv ∧ RemainsAfterValue noDefs depth rest ls ∧ toks = v ++ rest ∧
    l = lv ++ ls

/-- What may remain of a document behind an event, as tokens and their listing: the rest of its last
rule, of the tables that are open, and of the document. -/
def Remains (e : Event) (depth : Nat) (noDefs : Bool) (toks : List Lexeme) (l : Listing) : Prop :=
  if e = .streamStart then
    if (toks.head?.map (·.token)) = some .curlyOpen then Ends (Derives .table) toks l
    else Ends LooseDefinitions toks l
  else if e = .streamEnd then Nothing toks l
  else if e.isKey then
    ∃ eq rest, eq.token = .equals ∧ toks = eq :: rest ∧ Leads .value noDefs depth rest l
  else if e = .tableStart then
    Closes (fun toks l => Nothing toks l ∨ Derives .entrylist toks l)
      (RemainsAfterValue noDefs (depth - 1)) toks l
  else RemainsAfterValue noDefs depth toks l

section
variable {last e : Event} {depth depth' : Nat} {noDefs noDefs' : Bool}
  {pre used toks rest : List Lexeme} {x : Lexeme} {l : Listing} {c c' : Config}

/-- Behind a key an equals sign and a value are left, and then what is left behind a value. -/
theorem remains_isKey (h : e.isKey) : Remains e depth noDefs toks l ↔
    ∃ eq rest, eq.token = .equals ∧ toks = eq :: rest ∧ Leads .value noDefs depth rest l := by
  have hne := Event.kind_ne (.inl h)
  rw [Remains, if_neg hne.2.2.1, if_neg hne.2.2.2, if_pos h]

/-- Behind an opening brace the entries of the table and its closing brace are left. -/
theorem remains_tableStart : Remains .tableStart depth noDefs toks l ↔
    Closes (fun toks l => Nothing toks l ∨ Derives .entrylist toks l)
      (RemainsAfterValue noDefs (depth - 1)) toks l := by
  rw [Remains, if_neg nofun, if_neg nofun, if_neg nofun, if_pos rfl]

/-- Behind a value what is left depends on the tables that are open. -/
theorem remains_endsValue (h : e.endsValue) :
    Remains e depth noDefs toks l ↔ RemainsAfterValue noDefs depth toks l := by
  have hne : e ≠ .streamStart ∧ e ≠ .streamEnd ∧ ¬ e.isKey = true ∧ e ≠ .tableStart := by
    cases e <;> first | (cases h; done) | exact ⟨nofun, nofun, nofun, nofun⟩
  rw [Remains, if_neg hne.1, if_neg hne.2.1, if_neg hne.2.2.1, if_neg hne.2.2.2]

/-! ## Values and entries -/

/-- A value in front of what remains behind it is what a key leads to. -/
theorem IsValue.remains (h : IsValue x depth e depth') (hd : e = .tableStart → depth + 1 < 2 ^ 32)
    (hr : Remains e depth' noDefs rest l) :
    Leads .value noDefs depth (x :: rest) ((e, x.text) :: l) := by
  cases h with
  | scalar hscalar =>
    have hends : e.endsValue := by simp [Event.endsValue, scalarEvent_isScalar hscalar]
    exact ⟨[x], rest, _, l, .scalar hscalar, (remains_endsValue hends).mp hr, rfl, rfl⟩
  | table hopen =>
    rw [remains_tableStart, deeper_eq (hd rfl), Nat.add_sub_cancel] at hr
    obtain @⟨es, rest, l, ls, c, hes, hclose, hrest⟩ := hr
    refine ⟨x :: es ++ [c], rest, (.tableStart, x.text) :: l ++ [(.tableEnd, c.text)], ls,
      .value ?_, hrest, by simp, by simp⟩
    rcases hes with ⟨rfl, rfl⟩ | hes
    · exact .emptyTable hopen hclose
    · exact .table hopen hes hclose

/-- A key in front of its value. -/
theorem keyRemains (hk : Derives .key used [(e, x.text)]) (he : e.isKey)
    (hr : Remains e depth noDefs rest l) :
    Leads .entry noDefs depth (used ++ rest) ((e, x.text) :: l) := by
  obtain ⟨eq, _, heq, rfl, v, rest, lv, ls, hv, hrest, rfl, rfl⟩ := (remains_isKey he).mp hr
  exact ⟨used ++ eq :: v, rest, _, ls, .keyed hk heq hv, hrest, by simp, rfl⟩

/-- An entry in front of what remains behind its first event: a value, or a key that leads to one.
-/
theorem IsEntry.remains (h : IsEntry depth used x e depth')
    (hd : e = .tableStart → depth + 1 < 2 ^ 32) (hr : Remains e depth' noDefs rest l) :
    Leads .entry noDefs depth (used ++ rest) ((e, x.text) :: l) := by
  cases h with
  | name hname => exact keyRemains (.name hname) rfl hr
  | bracket hopen hkey hclose =>
    exact keyRemains (.bracket hopen hkey hclose) (keyEvent_isKey hkey) hr
  | value hvalue =>
    obtain ⟨v, rest', lv, ls, hv, hrest⟩ := hvalue.remains hd hr
    exact ⟨v, rest', lv, ls, .implicit hv, hrest⟩

/-! ## Definitions -/

/-- Semicolons outside of tables do not matter. -/
theorem dropTopSemis_semis {semis : List Lexeme} (h : ∀ y ∈ semis, y.isSemicolon) :
    dropTopSemis 0 (semis ++ toks) = dropTopSemis 0 toks := by
  induction semis with
  | nil => rfl
  | cons y semis ih =>
    obtain ⟨hy, hsemis⟩ := List.forall_mem_cons.mp h
    rw [List.cons_append, dropTopSemis_semicolon hy, ih hsemis]

/-- A definition in front of others, with the semicolons before it, gives definitions again. -/
theorem LooseDefinitions.definition {semis v : List Lexeme} {eq : Lexeme} {ls : Listing}
    (hsemis : ∀ y ∈ semis, y.isSemicolon) (hname : x.token = .name) (heq : eq.token = .equals)
    (hv : Derives .value v l) (h : LooseDefinitions toks ls) :
    LooseDefinitions (semis ++ x :: eq :: v ++ toks) ((.defName, x.text) :: l ++ ls) := by
  have hkept : dropTopSemis 0 (v ++ toks) = v ++ dropTopSemis 0 toks := hv.kept le_rfl
  have hdrop : dropTopSemis 0 (semis ++ x :: eq :: v ++ toks) =
      x :: eq :: v ++ dropTopSemis 0 toks := by
    rw [List.append_assoc, dropTopSemis_semis hsemis, List.cons_append, List.cons_append,
      dropTopSemis_token hname ⟨nofun, nofun, nofun⟩,
      dropTopSemis_token heq ⟨nofun, nofun, nofun⟩, hkept]
    rfl
  rw [LooseDefinitions, hdrop]
  exact .deflist (.definition hname heq hv) h

/-- A definition in front of what remains behind its name, up to the end of the input. -/
theorem definitionRemains {semis : List Lexeme} (hsemis : ∀ y ∈ semis, y.isSemicolon)
    (hname : x.token = .name) (hr : Remains .defName 0 false rest l) :
    Ends LooseDefinitions (semis ++ [x] ++ rest) ((.defName, x.text) :: l) := by
  obtain ⟨eq, _, heq, rfl, v, rest, lv, ls, hv, hrest, rfl, rfl⟩ := (remains_isKey rfl).mp hr
  obtain @⟨toks, lt, t, htoks, ht⟩ : Ends LooseDefinitions rest ls := hrest
  rw [show semis ++ [x] ++ eq :: (v ++ (toks ++ [t])) =
      (semis ++ x :: eq :: v ++ toks) ++ [t] by simp,
    show (Event.defName, x.text) :: (lv ++ (lt ++ [(.streamEnd, t.text)])) =
      ((.defName, x.text) :: lv ++ lt) ++ [(.streamEnd, t.text)] by simp]
  exact .mk (.definition hsemis hname heq hv htoks) ht

/-! ## Moves -/

/-- An entry in front of what remains of a table behind it. -/
theorem Leads.entry (h : Leads .entry noDefs depth toks l) (hdepth : depth ≠ 0) :
    ∃ v vs rest lv lvs ls c, Derives .entry v lv ∧ Derives .entryRest vs lvs ∧
      c.token = .curlyClose ∧ RemainsAfterValue noDefs (depth - 1) rest ls ∧
      toks = v ++ (vs ++ c :: rest) ∧ l = lv ++ (lvs ++ (.tableEnd, c.text) :: ls) := by
  obtain ⟨depth, rfl⟩ := Nat.exists_eq_succ_of_ne_zero hdepth
  obtain ⟨v, _, lv, _, hv, hrest, rfl, rfl⟩ := h
  obtain @⟨vs, rest, lvs, ls, c, hvs, hclose, hrest⟩ := hrest
  exact ⟨v, vs, rest, lv, lvs, ls, c, hv, hvs, hclose, hrest, rfl, rfl⟩

/-- The end of a table in front of what remains behind the table. -/
theorem tableEndRemains {c : Lexeme} (hdepth : depth ≠ 0) (h : Derives .entryRest toks [])
    (hclose : c.token = .curlyClose) (hr : RemainsAfterValue noDefs (depth - 1) rest l) :
    RemainsAfterValue noDefs depth (toks ++ c :: rest) ((.tableEnd, c.text) :: l) := by
  obtain ⟨depth, rfl⟩ := Nat.exists_eq_succ_of_ne_zero hdepth
  exact .mk h hclose hr

/-- The end of the input, where nothing else remains. -/
theorem streamEndRemains (heof : x.token = .eof) (hr : Remains .streamEnd depth noDefs rest l) :
    RemainsAfterValue noDefs 0 (x :: rest) ((.streamEnd, x.text) :: l) := by
  obtain ⟨rfl, rfl⟩ : Nothing rest l := hr
  cases noDefs with
  | true =>
    have hnone : Nothing [] [] := ⟨rfl, rfl⟩
    exact .mk hnone heof
  | false =>
    have hnone : LooseDefinitions [] [] := .noDefinition
    exact .mk hnone heof

/-- **A move takes its tokens and its event off what remains**, by cases on the move: this is the
step of the induction on a run, from its end. What is left to derive is told by the last event and
the depth (`Remains`), and each move fits one of its forms. -/
theorem Move.remains (h : Move last depth noDefs used x e depth' noDefs')
    (ht : Config.Tame ⟨last, depth, noDefs, used ++ rest⟩)
    (hr : Remains e depth' noDefs' rest l) :
    Remains last depth noDefs (used ++ rest) ((e, x.text) :: l) := by
  have hd := ht.deeper_lt h
  cases h with
  | document hopen =>
    obtain ⟨rfl, rfl⟩ := ht.start rfl
    obtain ⟨v, _, lv, _, hv, hrest, htoks, hl⟩ := IsValue.remains (.table hopen) hd hr
    obtain @⟨_, _, t, ⟨rfl, rfl⟩, heof⟩ : Ends Nothing _ _ := hrest
    rw [Remains, if_pos rfl, if_pos (by simp [hopen]), List.singleton_append, htoks, hl]
    refine .mk ?_ heof
    cases hv with
    | scalar hscalar =>
      obtain rfl := (List.cons.inj htoks).1
      rw [hopen] at hscalar
      cases hscalar
    | value htable => exact htable
  | @definition _ _ _ semis _ hlast hsemis hname =>
    rcases hlast with rfl | ⟨hends, rfl, rfl⟩
    · obtain ⟨rfl, rfl⟩ := ht.start rfl
      rw [Remains, if_pos rfl, if_neg]
      · exact definitionRemains hsemis hname hr
      · cases semis with
        | nil => simp [hname]
        | cons y semis =>
          have hy : y.token = .semicolon := of_decide_eq_true (hsemis y List.mem_cons_self)
          simp [hy]
    · rw [remains_endsValue hends]
      exact definitionRemains hsemis hname hr
  | streamEnd hlast heof =>
    have hremains := streamEndRemains heof hr
    rcases hlast with rfl | ⟨hends, rfl⟩
    · obtain ⟨rfl, rfl⟩ := ht.start rfl
      rw [Remains, if_pos rfl, if_neg (by simp [heof])]
      exact hremains
    · rw [remains_endsValue hends]
      exact hremains
  | value hkey heq hvalue =>
    rw [remains_isKey hkey]
    exact ⟨_, x :: rest, heq, rfl, hvalue.remains hd hr⟩
  | firstEntry hentry =>
    obtain ⟨v, vs, rest, lv, lvs, ls, c, hv, hvs, hclose, hrest, htoks, hl⟩ :=
      (hentry.remains hd hr).entry (ht.table rfl)
    rw [remains_tableStart, htoks, hl, ← List.append_assoc, ← List.append_assoc]
    exact .mk (.inr (.entrylist hv hvs)) hclose hrest
  | @entry _ _ _ _ _ _ sep _ hends hne hsep hentry =>
    obtain ⟨v, vs, rest, lv, lvs, ls, c, hv, hvs, hclose, hrest, htoks, hl⟩ :=
      (hentry.remains hd hr).entry hne
    obtain ⟨depth, rfl⟩ := Nat.exists_eq_succ_of_ne_zero hne
    have hes : Derives .entryRest (sep :: v ++ vs) (lv ++ lvs) := .entryRest hsep hv hvs
    rw [remains_endsValue hends, List.cons_append, htoks, hl, ← List.append_assoc,
      ← List.append_assoc]
    exact .mk hes hclose hrest
  | tableEnd hlast hne hclose =>
    have hrest := (remains_endsValue rfl).mp hr
    rcases hlast with rfl | hends
    · rw [remains_tableStart]
      have hnone : Nothing [] [] ∨ Derives .entrylist [] [] := .inl ⟨rfl, rfl⟩
      exact .mk (P := fun toks l => Nothing toks l ∨ Derives .entrylist toks l) hnone hclose hrest
    · rw [remains_endsValue hends]
      exact tableEndRemains hne .noEntry hclose hrest
  | separatedTableEnd hends hne hsep hclose =>
    have hrest := (remains_endsValue rfl).mp hr
    rw [remains_endsValue hends]
    exact tableEndRemains hne (.separator hsep) hclose hrest

/-- A run to the end of the stream has read what remained. -/
theorem Run.remains (h : Run c l c') (ht : c.Tame) (hend : c'.event = .streamEnd)
    (hnil : c'.toks = []) : Remains c.event c.depth c.noDefs c.toks l := by
  induction h with
  | refl c =>
    rw [hend, hnil]
    exact ⟨rfl, rfl⟩
  | move hmove _ ih => exact hmove.remains ht (ih (hmove.tame ht) hend hnil)

end

end Eltn
