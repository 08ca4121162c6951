import Eltn.Document.Tokens
import Eltn.Lexer.Layout
import Eltn.Parser.Documents

/-!
# Parsing documents

A parser that reads the tokens of a document tells the document, and comes to the end of the stream
(`emits_of_spelled`); a parser that comes to the end of its stream has read the tokens of a
document, and told it (`spelled_of_streamEnd`). For a list of definitions the second part takes one
definition off the front: the grammar gives its value, the parser makes the run of that value, and
what is left is read in fewer calls.
-/

namespace Eltn

open ParserState

namespace Parser

section
variable {s : Stream} {p : Parser Stream} {c : Config} {e last : Event} {depth : Nat}
  {noDefs : Bool} {toks rest : List Lexeme} {x : Lexeme} {l : Listing} {n : Nat}

/-! ## Documents are told -/

/-- Definitions are run: from a place where one is expected the parser reports those of the list,
one after the other, and comes to such a place again. By recursion on the list, a semicolon between
two of them being read with the second. -/
theorem definitions_run : ∀ (ds : List (Bytes × Value)) {toks rest : List Lexeme} {last : Event},
    DefinitionPlace last → DefinitionsSpelled ds (items toks) → (∀ x ∈ toks, x.Read) →
    Config.Tame ⟨last, 0, false, toks ++ rest⟩ →
    ∃ e l, DefinitionPlace e ∧ told l = definitionEvents ds ∧
      Run ⟨last, 0, false, toks ++ rest⟩ l ⟨e, 0, false, rest⟩
  | [], toks, rest, last, hlast, h, hread, htame => by
    obtain rfl : toks = [] := List.map_eq_nil_iff.mp h
    exact ⟨last, [], hlast, rfl, .refl _⟩
  | (name, v) :: ds, toks, rest, last, hlast, h, hread, htame => by
    obtain ⟨_, _, _, _, hsemis, heq, hv, hds, hitems⟩ := h
    obtain ⟨semis, _, rfl, rfl, hname⟩ := items_eq_append hitems
    obtain ⟨x, _, rfl, hx, hequals⟩ := items_eq_cons hname
    obtain ⟨eq, _, rfl, rfl, hbehind⟩ := items_eq_cons hequals
    obtain ⟨vtoks, dtoks, rfl, rfl, rfl⟩ := items_eq_append hbehind
    obtain ⟨htoken, htext⟩ := Prod.mk.inj hx
    obtain ⟨lv, hlv, htoldv⟩ := value_derives v hv fun y hy => hread y (by simp [hy])
    have hsemis' : ∀ y ∈ semis, y.isSemicolon := fun y hy =>
      decide_eq_true (hsemis _ (List.mem_map_of_mem hy))
    rw [show semis ++ x :: eq :: (vtoks ++ dtoks) ++ rest =
      semis ++ x :: eq :: vtoks ++ (dtoks ++ rest) by simp] at htame ⊢
    obtain ⟨e, hends, hrun⟩ := definitionRuns htoken heq hlv.runs hlast hsemis' htame
    obtain ⟨e', l, hplace, htold, hrun'⟩ := definitions_run ds (.inr hends) hds
      (fun y hy => hread y (by simp [hy])) (hrun.tame htame).1
    refine ⟨e', _, hplace, ?_, hrun.trans hrun'⟩
    rw [told_append, told_cons, htoldv, htold, (hread x (by simp)).stringOf_eq htoken (by simp),
      htext]
    rfl

/-- **The tokens of a document are told**, and the end of the stream behind them: the parser emits a
listing whose events are the document's. -/
theorem emits_of_spelled {d : Document} (h : d.Spelled (items s.significant))
    (hread : ∀ x ∈ s.significant, x.Read) (hs : Shallow s.significant) :
    ∃ l, Emits s l ∧ told l = d.events := by
  cases d with
  | table es =>
    obtain ⟨_, _, _, hopen, hes, hclose, hitems⟩ := h
    obtain ⟨o, _, hall, rfl, htail⟩ := items_eq_cons hitems
    obtain ⟨inner, _, rfl, rfl, hlast⟩ := items_eq_append htail
    obtain ⟨c, rfl, rfl⟩ := items_eq_singleton hlast
    obtain ⟨l, hl, htold⟩ := table_derives hopen hclose
      (entries_derives es hes fun x hx => hread x (by rw [hall]; simp [hx]))
    rw [← hall] at hl
    exact ⟨l, table_emits hs hl, htold⟩
  | definitions ds =>
    obtain ⟨e, l, hplace, htold, hrun⟩ := definitions_run ds (.inl rfl) h hread (new_tame hs)
    have hwhole := hrun.trans (streamEnd_run (hplace.imp id fun h => ⟨h, rfl⟩))
    exact ⟨l, emits_of_run hwhole rfl, htold⟩

/-! ## What is told is a document -/

/-- What is reported in two parts is reported by one run, if the first part does not come to an end.
-/
theorem reports_add (k m : Nat) : ∀ {p : Parser Stream}, (p.after .stream k).hasNext = true →
    p.reports .stream (k + m) = p.reports .stream k ++ (p.after .stream k).reports .stream m := by
  induction k with
  | zero => intro p _; rw [Nat.zero_add]; rfl
  | succ k ih =>
    intro p h
    have hnext : p.hasNext = true := by
      cases hp : p.hasNext with
      | true => rfl
      | false => rw [hasNext_after .stream hp] at h; exact h
    rw [after_succ] at h ⊢
    rw [Nat.succ_add, reports, reports, if_pos hnext, if_pos hnext, ih h, List.cons_append]

/-- A run reports no start of the stream and no error. -/
theorem run_events_ne {c c' : Config} (h : Run c l c') (hd : c.depth < 2 ^ 32) :
    ∀ y ∈ l, y.1 ≠ .streamStart ∧ y.1 ≠ .error := by
  induction h with
  | refl c => exact fun y hy => by cases hy
  | move hmove _ ih =>
    obtain ⟨hlt, -, herr, hstart⟩ := hmove.bounds hd
    exact List.forall_mem_cons.mpr ⟨⟨hstart, herr⟩, ih hlt⟩

/-- Where the parser has come to the end of the stream, it has made a run to it. -/
theorem At.run_of_streamEnd (h : p.At c) (hend : (p.after .stream n).event = .streamEnd) :
    ∃ c', Run c (p.reports .stream n) c' ∧ c'.event = .streamEnd ∧ c'.toks = [] := by
  rcases reports_run n h with ⟨-, c', hrun, hat⟩ | ⟨herr, -⟩
  · have hevent : c'.event = .streamEnd := hat.event_eq.symm.trans hend
    refine ⟨c', hrun, hevent, ?_⟩
    rw [hat.toks_eq, if_pos hevent]
  · rw [herr] at hend
    cases hend

/-- An event that ends a value is none of those before or behind all of them. -/
theorem endsValue_ne (h : e.endsValue) : e ≠ .streamEnd ∧ e ≠ .streamStart ∧ ¬ e.isKey := by
  cases e <;> first | (cases h; done) | exact ⟨nofun, nofun, nofun⟩

/-- The calls up to a state that is no end of the stream come before those that reach it, since the
end is for good. -/
theorem At.exists_add (h : (p.after .stream n).event = .streamEnd) {k : Nat}
    (hnext : (p.after .stream k).hasNext = true) : ∃ m, n = k + m ∧
      ((p.after .stream k).after .stream m).event = .streamEnd := by
  rcases Nat.le_total k n with hle | hle
  · obtain ⟨m, rfl⟩ := Nat.exists_eq_add_of_le hle
    have hadd : p.after .stream (k + m) = (p.after .stream k).after .stream m := by
      rw [after, Nat.add_comm, Function.iterate_add_apply]
      rfl
    exact ⟨m, rfl, hadd ▸ h⟩
  · obtain ⟨m, rfl⟩ := Nat.exists_eq_add_of_le hle
    have hno : (p.after .stream n).hasNext = false := by rw [ParserState.hasNext, h]; rfl
    have hend := congrArg (·.1) (after_add_halted .stream hno m)
    rw [ParserState.hasNext, show (p.after .stream (n + m)).event = .streamEnd from hend.trans h]
      at hnext
    cases hnext

/-- **Definitions are read to the end.** A parser that stands where a definition may follow and
comes to the end of the stream has read definitions and told them. -/
theorem definitions_of_streamEnd (n : Nat) : ∀ {p : Parser Stream} {last : Event}
    {toks : List Lexeme}, p.At ⟨last, 0, false, toks⟩ → DefinitionPlace last →
    (last = .streamStart → toks.head?.map (·.token) ≠ some .curlyOpen) →
    Config.Tame ⟨last, 0, false, toks⟩ → (∀ x ∈ toks, x.Read) →
    (p.after .stream n).event = .streamEnd →
    ∃ ds dtoks t, toks = dtoks ++ [t] ∧ t.token = .eof ∧ DefinitionsSpelled ds (items dtoks) ∧
      told (p.reports .stream n) = definitionEvents ds ++ [(.streamEnd, [])] := by
  induction n using Nat.strongRecOn with
  | ind n ih =>
    intro p last toks hat hlast hfirst htame hread hend
    obtain ⟨c', hrun, hevent, hnil⟩ := hat.run_of_streamEnd hend
    generalize hreported : p.reports .stream n = l at hrun
    cases hrun with
    | refl =>
      rcases hlast with rfl | hlast
      · cases hevent
      · exact absurd hevent (endsValue_ne hlast).1
    | @move _ e _ _ _ _ used toks x l _ hmove hrest =>
      have htame' := hmove.tame htame
      cases hmove with
      | document hopen => exact absurd (by simp [hopen]) (hfirst rfl)
      | value hkey =>
        rcases hlast with rfl | hlast
        · cases hkey
        · exact absurd hkey (endsValue_ne hlast).2.2
      | firstEntry => rcases hlast with hlast | hlast <;> cases hlast
      | entry _ hne => exact absurd rfl hne
      | tableEnd _ hne => exact absurd rfl hne
      | separatedTableEnd _ hne => exact absurd rfl hne
      | streamEnd _ heof =>
        cases hrest with
        | refl =>
          obtain rfl : toks = [] := hnil
          exact ⟨[], [], x, rfl, heof, rfl, rfl⟩
        | move hmove => exact absurd rfl hmove.last_ne.1
      | @definition _ _ _ semis _ _ hsemis hname =>
        obtain ⟨eq, _, heq, rfl, v, rest, lv, ls, hv, -, rfl, rfl⟩ :=
          (remains_isKey rfl).mp (hrest.remains htame' hevent hnil)
        obtain ⟨value, hspelled, htoldv⟩ := hv.tells fun y hy => hread y (by simp [hy])
        have hassoc : semis ++ [x] ++ eq :: (v ++ rest) = semis ++ x :: eq :: v ++ rest := by simp
        rw [hassoc] at hat htame hread
        obtain ⟨e, hends, hdef⟩ := definitionRuns hname heq hv.runs hlast hsemis htame
        obtain ⟨hreports, hat'⟩ := run_reports hdef hat
        have hne := endsValue_ne hends
        have hnext := hat'.hasNext_iff.mpr hne.1
        obtain ⟨m, rfl, hend'⟩ := At.exists_add hend hnext
        obtain ⟨ds, dtoks, t, rfl, ht, hds, htold⟩ := ih m (by simp) hat' (.inr hends)
          (fun hstart => absurd hstart hne.2.1) (hdef.tame htame).1
          (fun y hy => hread y (List.mem_append_right _ hy)) hend'
        refine ⟨(x.text, value) :: ds, semis ++ x :: eq :: (v ++ dtoks), t, by simp, ht, ?_, ?_⟩
        · refine ⟨items semis, (eq.token, eq.text), items v, items dtoks, ?_, heq, hspelled, hds,
            by simp [hname]⟩
          intro y hy
          obtain ⟨z, hz, rfl⟩ := List.mem_map.mp hy
          exact of_decide_eq_true (hsemis z hz)
        · rw [← hreported, reports_add _ _ hnext, hreports, told_append, htold, told_cons, htoldv,
            (hread x (by simp)).stringOf_eq hname (by simp)]
          simp [definitionEvents, Event.report, Event.carries, stringFor]

/-- **What is told is a document.** A parser that comes to the end of its stream has read the tokens
of a document and told it. -/
theorem spelled_of_streamEnd (h : ((new s).after .stream n).event = .streamEnd)
    (hread : ∀ x ∈ s.significant, x.Read) (hfinal : s.final.Read) (hs : Shallow s.significant) :
    ∃ d : Document, d.Spelled (items s.significant) ∧
      told ((new s).reports .stream n) = d.events ++ [(.streamEnd, [])] := by
  have hall : ∀ x ∈ s.significant ++ [s.final], x.Read := by
    intro x hx
    rcases List.mem_append.mp hx with hx | hx
    · exact hread x hx
    · rw [List.mem_singleton.mp hx]
      exact hfinal
  rcases Decidable.em ((s.significant ++ [s.final]).head?.map (·.token) = some .curlyOpen) with
    hfirst | hfirst
  · obtain ⟨c, hrun, hend, hnil⟩ := run_of_streamEnd h
    have hremains := hrun.remains (new_tame hs) hend hnil
    rw [start, Remains, if_pos rfl, if_pos hfirst] at hremains
    generalize htoks : s.significant ++ [s.final] = toks at hremains
    generalize (new s).reports .stream n = l at hremains
    obtain ⟨htable, -⟩ := hremains
    obtain ⟨rfl, -⟩ := List.append_inj' htoks rfl
    obtain ⟨es, hes, htold⟩ := htable.tells hread
    refine ⟨.table es, hes, ?_⟩
    rw [told_append, htold]
    rfl
  · obtain ⟨ds, dtoks, t, htoks, -, hds, htold⟩ := definitions_of_streamEnd n (new_at s) (.inl rfl)
      (fun _ => hfirst) (new_tame hs) hall h
    obtain ⟨rfl, -⟩ := List.append_inj' htoks rfl
    exact ⟨.definitions ds, hds, htold⟩

end

end Parser

end Eltn
