import Eltn.Parser.Step
import Eltn.Lib.Walk
import Mathlib.Data.List.TakeWhile

/-!
# The moves of the parser

`Move` says in the words of the grammar what a call can do that reports an event. It holds exactly
of the outcomes of `step`: `step_moved` is the inversion, and `Move.step_eq` says that every move is
made where its tokens stand next.
-/

namespace Eltn

open ParserState

/-! ## Moves -/

/-- A value starts with the token `x` at a depth: the event and the depth behind it. -/
inductive IsValue (x : Lexeme) (depth : Nat) : Event → Nat → Prop
  | scalar {e : Event} : scalarEvent x.token = some e → IsValue x depth e depth
  | table : x.token = .curlyOpen → IsValue x depth .tableStart (deeper depth)

/-- The tokens `used` are a key without its equals sign, or start a value; the event is about `x`.
-/
inductive IsEntry (depth : Nat) : List Lexeme → Lexeme → Event → Nat → Prop
  | name {x : Lexeme} : x.token = .name → IsEntry depth [x] x .keyString depth
  | bracket {o x c : Lexeme} {e : Event} : o.token = .squareOpen → keyEvent x.token = some e →
      c.token = .squareClose → IsEntry depth [o, x, c] x e depth
  | value {x : Lexeme} {e : Event} {depth' : Nat} : IsValue x depth e depth' →
      IsEntry depth [x] x e depth'

/-- A comma or a semicolon, `entrysep` of the grammar. -/
def Lexeme.isSeparator (x : Lexeme) : Bool := x.token = .comma || x.token = .semicolon

/-- The separators as a proposition, the form in which the grammar and the moves ask for them. -/
theorem Lexeme.isSeparator_iff {x : Lexeme} :
    x.isSeparator = true ↔ x.token = .comma ∨ x.token = .semicolon := by
  simp [isSeparator]

namespace Event

/-- The events that an equals sign follows: the name of a definition and the keys of entries. -/
def isKey (e : Event) : Bool :=
  match e with
  | .defName | .keyString | .keyNumber | .keyInteger => true
  | _ => false

/-- The events of scalar values, behind which the value is complete. -/
def isScalar (e : Event) : Bool :=
  match e with
  | .valueString | .valueNumber | .valueInteger | .valueTrue | .valueFalse | .valueNil => true
  | _ => false

/-- The events that end a value. -/
def endsValue (e : Event) : Bool := e = .tableEnd || e.isScalar

end Event

/-- A call that reports an event: the last event, the depth and `no_defs` before it, the tokens
read, the token the event is about, and the event, the depth and `no_defs` after it. -/
inductive Move : Event → Nat → Bool → List Lexeme → Lexeme → Event → Nat → Bool → Prop
  | document {depth : Nat} {noDefs : Bool} {x : Lexeme} : x.token = .curlyOpen →
      Move .streamStart depth noDefs [x] x .tableStart (deeper depth) true
  | definition {last : Event} {depth : Nat} {noDefs : Bool} {semis : List Lexeme} {x : Lexeme} :
      last = .streamStart ∨ (last.endsValue ∧ depth = 0 ∧ noDefs = false) →
      (∀ y ∈ semis, y.isSemicolon) → x.token = .name →
      Move last depth noDefs (semis ++ [x]) x .defName depth noDefs
  | streamEnd {last : Event} {depth : Nat} {noDefs : Bool} {x : Lexeme} :
      last = .streamStart ∨ (last.endsValue ∧ depth = 0) → x.token = .eof →
      Move last depth noDefs [x] x .streamEnd depth noDefs
  | value {last e : Event} {depth depth' : Nat} {noDefs : Bool} {eq x : Lexeme} :
      last.isKey → eq.token = .equals → IsValue x depth e depth' →
      Move last depth noDefs [eq, x] x e depth' noDefs
  | firstEntry {e : Event} {depth depth' : Nat} {noDefs : Bool} {used : List Lexeme} {x : Lexeme} :
      IsEntry depth used x e depth' → Move .tableStart depth noDefs used x e depth' noDefs
  | entry {last e : Event} {depth depth' : Nat} {noDefs : Bool} {used : List Lexeme}
      {sep x : Lexeme} : last.endsValue → depth ≠ 0 → sep.isSeparator →
      IsEntry depth used x e depth' → Move last depth noDefs (sep :: used) x e depth' noDefs
  | tableEnd {last : Event} {depth : Nat} {noDefs : Bool} {x : Lexeme} :
      last = .tableStart ∨ last.endsValue → depth ≠ 0 → x.token = .curlyClose →
      Move last depth noDefs [x] x .tableEnd (depth - 1) noDefs
  | separatedTableEnd {last : Event} {depth : Nat} {noDefs : Bool} {sep x : Lexeme} :
      last.endsValue → depth ≠ 0 → sep.isSeparator → x.token = .curlyClose →
      Move last depth noDefs [sep, x] x .tableEnd (depth - 1) noDefs

section
variable {final x : Lexeme} {depth depth' : Nat} {noDefs noDefs' : Bool} {e last : Event}
  {pre toks used : List Lexeme}

/-- A token other than the end of the input is the first of the tokens left. -/
theorem cons_of_headD (hf : final.token = .eof) (hx : toks.headD final = x)
    (hne : x.token ≠ .eof) : ∃ r, toks = x :: r := by
  cases toks with
  | nil => subst hx; exact absurd hf hne
  | cons y r => cases hx; exact ⟨r, rfl⟩

/-- The end of the input is no scalar, so a move that reads a value never reads the last token of
the stream. -/
theorem scalarEvent_ne_eof {t : Token} (h : scalarEvent t = some e) : t ≠ .eof := by
  rintro rfl
  cases h

/-- Nor is it a key between brackets. -/
theorem keyEvent_ne_eof {t : Token} (h : keyEvent t = some e) : t ≠ .eof := by
  rintro rfl
  cases h

/-- Nor does a value start with it, whether it is a scalar or a table. -/
theorem IsValue.ne_eof (h : IsValue x depth e depth') : x.token ≠ .eof := by
  cases h with
  | scalar hscalar => exact scalarEvent_ne_eof hscalar
  | table hopen => rw [hopen]; nofun

/-- What a step on a value tells: it read one token more, the next one, which starts a value, and
left `no_defs` alone. -/
theorem valueStep_moved
    (h : valueStep final depth noDefs pre toks = .moved e depth' noDefs' x used) :
    toks.headD final = x ∧ used = pre ++ [x] ∧ noDefs' = noDefs ∧ IsValue x depth e depth' := by
  unfold valueStep at h
  dsimp only at h
  split at h
  · next hscalar => cases h; exact ⟨rfl, rfl, rfl, .scalar hscalar⟩
  split at h
  · next hopen => cases h; exact ⟨rfl, rfl, rfl, .table hopen⟩
  · cases h

/-- What a step on a closing brace tells: it read one token more, the next one, which is the brace,
and a table was open. -/
theorem tableEndStep_moved
    (h : tableEndStep final depth noDefs pre toks = .moved e depth' noDefs' x used) :
    toks.headD final = x ∧ used = pre ++ [x] ∧ noDefs' = noDefs ∧ e = .tableEnd ∧
      depth' = depth - 1 ∧ x.token = .curlyClose ∧ depth ≠ 0 := by
  unfold tableEndStep at h
  dsimp only at h
  split at h
  · next hclose => cases h; exact ⟨rfl, rfl, rfl, rfl, rfl, hclose.1, by omega⟩
  · cases h

/-- The entry cases read an entry or the end of a table, behind the separator `pre` if the call has
read one. By the branches of `entryStep`: a name, a key in brackets, a value, or the closing brace.
-/
theorem entryStep_moved (hf : final.token = .eof)
    (h : entryStep final depth noDefs pre toks = .moved e depth' noDefs' x used) :
    noDefs' = noDefs ∧ ∃ used', used = pre ++ used' ∧ used' <+: toks ∧
      (IsEntry depth used' x e depth' ∨ (used' = [x] ∧ e = .tableEnd ∧ depth' = depth - 1 ∧
        x.token = .curlyClose ∧ depth ≠ 0)) := by
  unfold entryStep at h
  dsimp only at h
  generalize hx : toks.headD final = y at h
  split at h
  · next hname =>
    cases h
    obtain ⟨r, rfl⟩ := cons_of_headD hf hx (by rw [hname]; nofun)
    exact ⟨rfl, [x], rfl, ⟨r, rfl⟩, .inl (.name hname)⟩
  split at h
  · next hopen =>
    obtain ⟨r, rfl⟩ := cons_of_headD hf hx (by rw [hopen]; nofun)
    rw [List.tail_cons] at h
    split at h
    · cases h
    next e' hkey =>
    generalize hk : r.headD final = key at h hkey
    obtain ⟨r', rfl⟩ := cons_of_headD hf hk (keyEvent_ne_eof hkey)
    rw [List.tail_cons] at h
    generalize hc : r'.headD final = close at h
    split at h
    · next hclose =>
      cases h
      obtain ⟨r'', rfl⟩ := cons_of_headD hf hc (by rw [hclose]; nofun)
      exact ⟨rfl, [y, x, close], rfl, ⟨r'', rfl⟩, .inl (.bracket hopen hkey hclose)⟩
    · cases h
  split at h
  · obtain ⟨hx', rfl, rfl, hvalue⟩ := valueStep_moved h
    obtain ⟨r, rfl⟩ := cons_of_headD hf hx' hvalue.ne_eof
    exact ⟨rfl, [x], rfl, ⟨r, rfl⟩, .inl (.value hvalue)⟩
  · obtain ⟨hx', rfl, rfl, he, hd, hclose, hne⟩ := tableEndStep_moved h
    obtain ⟨r, rfl⟩ := cons_of_headD hf hx' (by rw [hclose]; nofun)
    exact ⟨rfl, [x], rfl, ⟨r, rfl⟩, .inr ⟨rfl, he, hd, hclose, hne⟩⟩

/-- The definition cases read semicolons and a name, or the end of the input, from a place where a
definition is expected. -/
theorem definitionStep_moved (hf : final.token = .eof)
    (hlast : last = .streamStart ∨ (last.endsValue ∧ depth = 0 ∧ noDefs = false))
    (h : definitionStep final depth noDefs toks = .moved e depth' noDefs' x used) :
    Move last depth noDefs used x e depth' noDefs' ∧ used <+: toks ++ [final] := by
  unfold definitionStep at h
  dsimp only at h
  generalize hx : (toks.dropWhile (·.isSemicolon)).headD final = y at h
  have hsemis : ∀ z ∈ toks.takeWhile (·.isSemicolon), z.isSemicolon :=
    fun z => List.mem_takeWhile_imp
  have htoks := List.takeWhile_append_dropWhile (p := (·.isSemicolon)) (l := toks)
  split at h
  · next hname =>
    cases h
    obtain ⟨r, hr⟩ := cons_of_headD hf hx (by rw [hname]; nofun)
    rw [hr] at htoks
    refine ⟨.definition hlast hsemis hname, r ++ [final], ?_⟩
    calc toks.takeWhile (·.isSemicolon) ++ [x] ++ (r ++ [final])
        = (toks.takeWhile (·.isSemicolon) ++ x :: r) ++ [final] := by simp
      _ = toks ++ [final] := by rw [htoks]
  split at h
  · next heof =>
    cases h
    rw [heof.1, List.nil_append] at htoks
    refine ⟨.streamEnd (hlast.imp id fun h => ⟨h.1, h.2.1⟩) heof.2, ?_⟩
    rw [htoks] at hx
    cases toks with
    | nil => cases hx; exact List.prefix_rfl
    | cons z toks => cases hx; exact ⟨toks ++ [final], rfl⟩
  · cases h

/-- Behind a key the step reads an equals sign and the start of a value, and that is a move. All
that it reads stands in front of it, the end of the input at most. -/
theorem keyStep_moved (hf : final.token = .eof) (hlast : last.isKey)
    (h : keyStep final depth noDefs toks = .moved e depth' noDefs' x used) :
    Move last depth noDefs used x e depth' noDefs' ∧ used <+: toks ++ [final] := by
  unfold keyStep at h
  dsimp only at h
  generalize hy : toks.headD final = y at h
  split at h
  · next heq =>
    obtain ⟨r, rfl⟩ := cons_of_headD hf hy (by rw [heq]; nofun)
    obtain ⟨hx, rfl, rfl, hvalue⟩ := valueStep_moved h
    obtain ⟨r', hr⟩ := cons_of_headD hf hx hvalue.ne_eof
    rw [List.tail_cons] at hr
    subst hr
    exact ⟨.value hlast heq hvalue, r' ++ [final], rfl⟩
  · cases h

/-- Behind a value the step reads on in the table that is open, or on the top level if none is, and
what it does is a move of one of these kinds. By the branches of `afterValueStep`; whatever it reads
it reads from the front of the tokens. -/
theorem afterValueStep_moved (hf : final.token = .eof) (hlast : last.endsValue)
    (h : afterValueStep final depth noDefs toks = .moved e depth' noDefs' x used) :
    Move last depth noDefs used x e depth' noDefs' ∧ used <+: toks ++ [final] := by
  unfold afterValueStep at h
  dsimp only at h
  generalize hy : toks.headD final = y at h
  split at h
  · next hdepth =>
    split at h
    · next hdefs =>
      exact definitionStep_moved hf (.inr ⟨hlast, hdepth, by simpa using hdefs⟩) h
    split at h
    · next heof =>
      cases h
      refine ⟨.streamEnd (.inr ⟨hlast, hdepth⟩) heof, ?_⟩
      cases toks with
      | nil => cases hy; exact List.prefix_rfl
      | cons z toks => cases hy; exact ⟨toks ++ [final], rfl⟩
    · cases h
  next hdepth =>
  split at h
  · next hsep =>
    obtain ⟨r, rfl⟩ := cons_of_headD hf hy (by rcases hsep with h | h <;> rw [h] <;> nofun)
    have hsep' := Lexeme.isSeparator_iff.mpr hsep
    obtain ⟨rfl, used', rfl, hpre, hentry | ⟨rfl, rfl, rfl, hclose, -⟩⟩ := entryStep_moved hf h
    · exact ⟨.entry hlast hdepth hsep' hentry,
        (List.prefix_cons_inj y).mpr (hpre.trans (List.prefix_append _ _))⟩
    · exact ⟨.separatedTableEnd hlast hdepth hsep' hclose,
        (List.prefix_cons_inj y).mpr (hpre.trans (List.prefix_append _ _))⟩
  · obtain ⟨hx, rfl, rfl, rfl, rfl, hclose, hne⟩ := tableEndStep_moved h
    obtain ⟨r, rfl⟩ := cons_of_headD hf hx (by rw [hclose]; nofun)
    exact ⟨.tableEnd (.inr hlast) hne hclose, r ++ [final], rfl⟩

/-- **Every event comes from a move**, on the next tokens of the input: what a call reads before it
reports is one of a few patterns. -/
theorem step_moved (hf : final.token = .eof)
    (h : step final depth noDefs toks last = .moved e depth' noDefs' x used) :
    Move last depth noDefs used x e depth' noDefs' ∧ used <+: toks ++ [final] := by
  cases last with
  | streamStart =>
    rw [step] at h
    generalize hy : toks.headD final = y at h
    split at h
    · next hopen =>
      cases h
      obtain ⟨r, rfl⟩ := cons_of_headD hf hy (by rw [hopen]; simp)
      exact ⟨.document hopen, r ++ [final], rfl⟩
    · exact definitionStep_moved hf (.inl rfl) h
  | comment => cases h
  | defName => exact keyStep_moved hf rfl h
  | keyString => exact keyStep_moved hf rfl h
  | keyNumber => exact keyStep_moved hf rfl h
  | keyInteger => exact keyStep_moved hf rfl h
  | tableEnd => exact afterValueStep_moved hf rfl h
  | valueString => exact afterValueStep_moved hf rfl h
  | valueNumber => exact afterValueStep_moved hf rfl h
  | valueInteger => exact afterValueStep_moved hf rfl h
  | valueTrue => exact afterValueStep_moved hf rfl h
  | valueFalse => exact afterValueStep_moved hf rfl h
  | valueNil => exact afterValueStep_moved hf rfl h
  | tableStart =>
    obtain ⟨rfl, used', rfl, hpre, hentry | ⟨rfl, rfl, rfl, hclose, hne⟩⟩ := entryStep_moved hf h
    · exact ⟨.firstEntry hentry, hpre.trans (List.prefix_append _ _)⟩
    · exact ⟨.tableEnd (.inl rfl) hne hclose, hpre.trans (List.prefix_append _ _)⟩
  | streamEnd => cases h
  | error => cases h

/-! ## Every move is made -/

/-- The step on a value is made wherever a value starts, whatever stands behind its first token. -/
theorem valueStep_eq (h : IsValue x depth e depth') (r : List Lexeme) :
    valueStep final depth noDefs pre (x :: r) = .moved e depth' noDefs x (pre ++ [x]) := by
  unfold valueStep
  cases h with
  | scalar hscalar => simp [hscalar]
  | table hopen => simp [hopen, scalarEvent]

/-- A value starts neither with a name nor with an opening bracket, so the step looks at it last,
behind both forms of keys. -/
theorem IsValue.token_ne (h : IsValue x depth e depth') :
    x.token ≠ .name ∧ x.token ≠ .squareOpen ∧
      ((scalarEvent x.token).isSome ∨ x.token = .curlyOpen) := by
  cases h with
  | scalar hscalar =>
    refine ⟨?_, ?_, .inl (by rw [hscalar]; rfl)⟩ <;> intro ht <;> rw [ht] at hscalar <;>
      cases hscalar
  | table hopen => exact ⟨by rw [hopen]; nofun, by rw [hopen]; nofun, .inr hopen⟩

/-- The step on an entry is made wherever a key or a value stands, whatever stands behind it: the
three forms of an entry start with different tokens. -/
theorem entryStep_eq (h : IsEntry depth used x e depth') (r : List Lexeme) :
    entryStep final depth noDefs pre (used ++ r) = .moved e depth' noDefs x (pre ++ used) := by
  cases h with
  | name hname => simp [entryStep, hname]
  | bracket hopen hkey hclose => simp [entryStep, hopen, hkey, hclose]
  | value hvalue =>
    obtain ⟨hname, hopen, hsome⟩ := hvalue.token_ne
    rw [entryStep]
    simp only [List.cons_append, List.nil_append, List.headD_cons, hname, hopen, hsome, if_true,
      if_false]
    exact valueStep_eq hvalue r

/-- A closing brace in the place of an entry ends the table. -/
theorem entryStep_close (hclose : x.token = .curlyClose) (hdepth : depth ≠ 0) (r : List Lexeme) :
    entryStep final depth noDefs pre (x :: r) =
      .moved .tableEnd (depth - 1) noDefs x (pre ++ [x]) := by
  have hpos : depth > 0 := Nat.pos_of_ne_zero hdepth
  simp [entryStep, tableEndStep, hclose, scalarEvent, hpos]

/-- The step on a definition skips the semicolons in front of it and reads its name. -/
theorem definitionStep_eq {semis : List Lexeme} (hsemis : ∀ y ∈ semis, y.isSemicolon)
    (hname : x.token = .name) (r : List Lexeme) :
    definitionStep final depth noDefs (semis ++ x :: r) =
      .moved .defName depth noDefs x (semis ++ [x]) := by
  have hx : ¬ x.isSemicolon = true := by simp [Lexeme.isSemicolon, hname]
  have htake : (semis ++ x :: r).takeWhile (·.isSemicolon) = semis := by
    rw [List.takeWhile_append_of_pos hsemis, List.takeWhile_cons_of_neg hx, List.append_nil]
  have hdrop : (semis ++ x :: r).dropWhile (·.isSemicolon) = x :: r := by
    rw [List.dropWhile_append_of_pos hsemis, List.dropWhile_cons_of_neg hx]
  simp [definitionStep, htake, hdrop, hname]

/-- Behind a key the step of the parser is `keyStep`, whichever of the key events was the last. -/
theorem step_of_isKey (h : last.isKey) :
    step final depth noDefs toks last = keyStep final depth noDefs toks := by
  cases last <;> first | rfl | cases h

/-- Behind a value or a table it is `afterValueStep`, likewise. -/
theorem step_of_endsValue (h : last.endsValue) :
    step final depth noDefs toks last = afterValueStep final depth noDefs toks := by
  cases last <;> first | rfl | cases h

/-- A definition, where one is expected: semicolons and a name are read, and the name reported. -/
theorem step_definition {semis : List Lexeme}
    (hlast : last = .streamStart ∨ (last.endsValue ∧ depth = 0 ∧ noDefs = false))
    (hsemis : ∀ y ∈ semis, y.isSemicolon) (hname : x.token = .name) (r : List Lexeme) :
    step final depth noDefs (semis ++ x :: r) last =
      .moved .defName depth noDefs x (semis ++ [x]) := by
  have heq : definitionStep final depth noDefs (semis ++ x :: r) =
      .moved .defName depth noDefs x (semis ++ [x]) := definitionStep_eq hsemis hname r
  rcases hlast with rfl | ⟨hlast, hdepth, hdefs⟩
  · have hhead : ((semis ++ x :: r).headD final).token ≠ .curlyOpen := by
      rcases semis with _ | ⟨y, semis⟩
      · rw [List.nil_append, List.headD_cons, hname]
        simp
      · have hy : y.token = .semicolon := by simpa [Lexeme.isSemicolon] using hsemis y (by simp)
        rw [List.cons_append, List.headD_cons, hy]
        simp
    rw [step, if_neg hhead, heq]
  · rw [step_of_endsValue hlast, afterValueStep, if_pos hdepth, if_pos (by simp [hdefs]), heq]

/-- **Every move is made**: `step` does it where its tokens stand next, whatever follows them. So a
call has no other choice. -/
theorem Move.step_eq (h : Move last depth noDefs used x e depth' noDefs') (r : List Lexeme)
    (he : e ≠ .streamEnd) :
    step final depth noDefs (used ++ r) last = .moved e depth' noDefs' x used := by
  cases h with
  | document hopen => rw [step]; simp [hopen]
  | definition hlast hsemis hname =>
    rw [List.append_assoc]
    exact step_definition hlast hsemis hname r
  | streamEnd _ _ => exact absurd rfl he
  | value hlast heq hvalue =>
    rw [step_of_isKey hlast, keyStep]
    simp only [List.cons_append, List.headD_cons, heq, if_true, List.tail_cons]
    exact valueStep_eq hvalue r
  | firstEntry hentry => exact entryStep_eq hentry r
  | entry hlast hdepth hsep hentry =>
    have hsep' := Lexeme.isSeparator_iff.mp hsep
    rw [step_of_endsValue hlast, afterValueStep, if_neg hdepth]
    simp only [List.cons_append, List.headD_cons, hsep', if_true, List.tail_cons]
    exact entryStep_eq hentry r
  | tableEnd hlast hdepth hclose =>
    have hpos : depth > 0 := Nat.pos_of_ne_zero hdepth
    rcases hlast with rfl | hlast
    · exact entryStep_close hclose hdepth r
    · rw [step_of_endsValue hlast, afterValueStep, if_neg hdepth]
      simp [hclose, tableEndStep, hpos]
  | separatedTableEnd hlast hdepth hsep hclose =>
    have hsep' := Lexeme.isSeparator_iff.mp hsep
    rw [step_of_endsValue hlast, afterValueStep, if_neg hdepth]
    simp only [List.cons_append, List.nil_append, List.headD_cons, hsep', if_true, List.tail_cons]
    exact entryStep_close hclose hdepth r

/-- The end of the input, where it is expected. -/
theorem step_streamEnd (hf : final.token = .eof)
    (hlast : last = .streamStart ∨ (last.endsValue ∧ depth = 0)) :
    step final depth noDefs [] last = .moved .streamEnd depth noDefs final [final] := by
  rcases hlast with rfl | ⟨hlast, hdepth⟩
  · simp [step, definitionStep, hf]
  · rw [step_of_endsValue hlast, afterValueStep, if_pos hdepth]
    cases noDefs <;> simp [definitionStep, hf]

end

/-! ## What the moves have in common -/

section
variable {last e : Event} {depth depth' : Nat} {noDefs noDefs' : Bool} {used toks : List Lexeme}
  {x final : Lexeme}

/-- The depth is an `unsigned int`, so it stays below 2³² by wrapping around. -/
theorem deeper_lt (depth : Nat) : deeper depth < 2 ^ 32 := Nat.mod_lt _ (Nat.two_pow_pos 32)

/-- The events of scalar tokens are the events of scalars. -/
theorem scalarEvent_isScalar {t : Token} (h : scalarEvent t = some e) : e.isScalar := by
  cases t <;> cases h <;> rfl

/-- The events of key tokens are the events of keys. -/
theorem keyEvent_isKey {t : Token} (h : keyEvent t = some e) : e.isKey := by
  cases t <;> cases h <;> rfl

/-- A value keeps the depth an `unsigned int`, and its event is that of a scalar or the start of a
table. -/
theorem IsValue.bounds (h : IsValue x depth e depth') (hd : depth < 2 ^ 32) :
    depth' < 2 ^ 32 ∧ (e.isScalar ∨ e = .tableStart) := by
  cases h with
  | scalar hscalar => exact ⟨hd, .inl (scalarEvent_isScalar hscalar)⟩
  | table _ => exact ⟨deeper_lt depth, .inr rfl⟩

/-- An entry does the same, with the events of keys besides. -/
theorem IsEntry.bounds (h : IsEntry depth used x e depth') (hd : depth < 2 ^ 32) :
    depth' < 2 ^ 32 ∧ (e.isKey ∨ e.isScalar ∨ e = .tableStart) := by
  cases h with
  | name _ => exact ⟨hd, .inl rfl⟩
  | bracket _ hkey _ => exact ⟨hd, .inl (keyEvent_isKey hkey)⟩
  | value hvalue => exact (hvalue.bounds hd).imp id .inr

/-- The events of keys and values are none of the others. -/
theorem Event.kind_ne (h : e.isKey ∨ e.isScalar ∨ e = .tableStart) :
    e ≠ .comment ∧ e ≠ .error ∧ e ≠ .streamStart ∧ e ≠ .streamEnd := by
  rcases h with h | h | rfl
  · cases e <;> first | (cases h; done) | exact ⟨nofun, nofun, nofun, nofun⟩
  · cases e <;> first | (cases h; done) | exact ⟨nofun, nofun, nofun, nofun⟩
  · exact ⟨nofun, nofun, nofun, nofun⟩

/-- A move keeps the depth a 32-bit word and reports an event other than a start, a comment or an
error. -/
theorem Move.bounds (h : Move last depth noDefs used x e depth' noDefs') (hd : depth < 2 ^ 32) :
    depth' < 2 ^ 32 ∧ e ≠ .comment ∧ e ≠ .error ∧ e ≠ .streamStart := by
  have hkind : ∀ e : Event, (e.isKey ∨ e.isScalar ∨ e = .tableStart) →
      e ≠ .comment ∧ e ≠ .error ∧ e ≠ .streamStart :=
    fun e h => ⟨(Event.kind_ne h).1, (Event.kind_ne h).2.1, (Event.kind_ne h).2.2.1⟩
  cases h with
  | document _ => exact ⟨deeper_lt depth, nofun, nofun, nofun⟩
  | definition _ _ _ => exact ⟨hd, nofun, nofun, nofun⟩
  | streamEnd _ _ => exact ⟨hd, nofun, nofun, nofun⟩
  | value _ _ hvalue => exact (hvalue.bounds hd).imp id fun h => hkind e (.inr h)
  | firstEntry hentry => exact (hentry.bounds hd).imp id (hkind e)
  | entry _ _ _ hentry => exact (hentry.bounds hd).imp id (hkind e)
  | tableEnd _ _ _ => exact ⟨by omega, nofun, nofun, nofun⟩
  | separatedTableEnd _ _ _ _ => exact ⟨by omega, nofun, nofun, nofun⟩

/-- No value is reported as the end of the stream. -/
theorem IsValue.ne_streamEnd (h : IsValue x depth e depth') : e ≠ .streamEnd := by
  cases h with
  | scalar hscalar => exact (Event.kind_ne (.inr (.inl (scalarEvent_isScalar hscalar)))).2.2.2
  | table _ => nofun

/-- No entry is reported as the end of the stream. -/
theorem IsEntry.ne_streamEnd (h : IsEntry depth used x e depth') : e ≠ .streamEnd := by
  cases h with
  | name _ => nofun
  | bracket _ hkey _ => exact (Event.kind_ne (.inl (keyEvent_isKey hkey))).2.2.2
  | value hvalue => exact hvalue.ne_streamEnd

/-- An entry reads at least one token, and never the end of the input. -/
theorem IsEntry.used_ne (h : IsEntry depth used x e depth') :
    used ≠ [] ∧ ∀ y ∈ used, y.token ≠ .eof := by
  cases h with
  | name hname => exact ⟨nofun, by simp [hname]⟩
  | bracket hopen hkey hclose =>
    exact ⟨nofun, by simpa [hopen, hclose] using keyEvent_ne_eof hkey⟩
  | value hvalue => exact ⟨nofun, by simpa using hvalue.ne_eof⟩

/-- A move reads some token, and the end of the input only to report it: then it is all that is
read. -/
theorem Move.used_ne (h : Move last depth noDefs used x e depth' noDefs') :
    used ≠ [] ∧ ((e = .streamEnd ∧ used = [x] ∧ x.token = .eof) ∨
      (e ≠ .streamEnd ∧ ∀ y ∈ used, y.token ≠ .eof)) := by
  have hsep : ∀ sep : Lexeme, sep.isSeparator → sep.token ≠ .eof := by
    intro sep hsep heof
    rw [Lexeme.isSeparator, heof] at hsep
    cases hsep
  have hlt : 0 < 2 ^ 32 := Nat.two_pow_pos 32
  cases h with
  | document hopen => exact ⟨by simp, .inr ⟨by simp, by simp [hopen]⟩⟩
  | @definition _ _ _ semis _ _ hsemis hname =>
    refine ⟨by simp, .inr ⟨by simp, ?_⟩⟩
    intro y hy
    rcases List.mem_append.mp hy with hy | hy
    · have hsemi : y.token = .semicolon := by simpa [Lexeme.isSemicolon] using hsemis y hy
      rw [hsemi]
      simp
    · rw [List.mem_singleton.mp hy, hname]
      simp
  | streamEnd _ heof => exact ⟨by simp, .inl ⟨rfl, rfl, heof⟩⟩
  | value _ heq hvalue =>
    exact ⟨by simp, .inr ⟨hvalue.ne_streamEnd, by simpa [heq] using hvalue.ne_eof⟩⟩
  | firstEntry hentry => exact ⟨hentry.used_ne.1, .inr ⟨hentry.ne_streamEnd, hentry.used_ne.2⟩⟩
  | entry _ _ hs hentry =>
    exact ⟨by simp, .inr ⟨hentry.ne_streamEnd,
      List.forall_mem_cons.mpr ⟨hsep _ hs, hentry.used_ne.2⟩⟩⟩
  | tableEnd _ _ hclose => exact ⟨by simp, .inr ⟨by simp, by simp [hclose]⟩⟩
  | separatedTableEnd _ _ hs hclose =>
    exact ⟨by simp, .inr ⟨by simp, by simpa [hclose] using hsep _ hs⟩⟩

/-- No move is made from the end of the stream or from an error. By cases on the move, whose last
event is the start of the stream or of a table, a key, or the end of a value. -/
theorem Move.last_ne (h : Move last depth noDefs used x e depth' noDefs') :
    last ≠ .streamEnd ∧ last ≠ .error := by
  have hends : ∀ e : Event, e.endsValue ∨ e.isKey → e ≠ .streamEnd ∧ e ≠ .error := by
    rintro e (h | h) <;> cases e <;> first | (cases h; done) | exact ⟨nofun, nofun⟩
  cases h with
  | document _ => exact ⟨nofun, nofun⟩
  | definition hlast _ _ =>
    rcases hlast with rfl | hlast
    · exact ⟨nofun, nofun⟩
    · exact hends last (.inl hlast.1)
  | streamEnd hlast _ =>
    rcases hlast with rfl | hlast
    · exact ⟨nofun, nofun⟩
    · exact hends last (.inl hlast.1)
  | value hlast _ _ => exact hends last (.inr hlast)
  | firstEntry _ => exact ⟨nofun, nofun⟩
  | entry hlast _ _ _ => exact hends last (.inl hlast)
  | tableEnd hlast _ _ =>
    rcases hlast with rfl | hlast
    · exact ⟨nofun, nofun⟩
    · exact hends last (.inl hlast)
  | separatedTableEnd hlast _ _ _ => exact hends last (.inl hlast)

/-- What a move leaves of the tokens: those behind it and the end of the input, or nothing once that
is reported. -/
theorem Move.rest_eq {r : List Lexeme} (h : Move last depth noDefs used x e depth' noDefs')
    (htoks : ∀ y ∈ toks, y.token ≠ .eof) (hf : final.token = .eof)
    (hr : used ++ r = toks ++ [final]) :
    r = if e = .streamEnd then [] else toks.drop used.length ++ [final] := by
  rcases h.used_ne.2 with ⟨rfl, rfl, hx⟩ | ⟨he, hused⟩
  · rw [if_pos rfl]
    cases toks with
    | nil => exact (List.cons.inj hr).2
    | cons y toks =>
      obtain ⟨rfl, -⟩ := List.cons.inj hr
      exact absurd hx (htoks x List.mem_cons_self)
  · rw [if_neg he]
    rcases List.eq_nil_or_concat r with rfl | ⟨r', z, rfl⟩
    · rw [List.append_nil] at hr
      exact absurd hf (hused final (by rw [hr]; simp))
    · rw [List.concat_eq_append, ← List.append_assoc] at hr
      obtain ⟨rfl, hz⟩ := List.append_inj' hr rfl
      rw [List.concat_eq_append, List.drop_left, hz]

/-! ## Nesting -/

/-- The step of a token in the nesting of tables. -/
def Lexeme.brace (x : Lexeme) : Option Int :=
  if x.token = .curlyOpen then some 1 else if x.token = .curlyClose then some (-1) else none

/-- The step of an event in the nesting of tables. -/
def Event.brace (e : Event) : Option Int :=
  if e = .tableStart then some 1 else if e = .tableEnd then some (-1) else none

/-- The nesting of tables in tokens, as a walk. -/
def braces (toks : List Lexeme) : List Int := toks.filterMap (·.brace)

/-- The braces of tokens are counted one token at a time, so they add up over an append. -/
theorem braces_append (toks toks' : List Lexeme) :
    braces (toks ++ toks') = braces toks ++ braces toks' := List.filterMap_append

/-- The braces of a first token come in front of those of the others. -/
theorem braces_cons (x : Lexeme) (toks : List Lexeme) :
    braces (x :: toks) = x.brace.toList ++ braces toks := by
  rw [braces, List.filterMap_cons]
  cases x.brace <;> rfl

/-- A token that is neither brace counts for nothing. -/
theorem Lexeme.brace_eq_none (h : x.token ≠ .curlyOpen ∧ x.token ≠ .curlyClose) :
    x.brace = none := by
  rw [brace, if_neg h.1, if_neg h.2]

/-- Nor do the events of keys and scalars, which open and close no table. -/
theorem Event.brace_eq_none (h : e.isKey ∨ e.isScalar) : e.brace = none := by
  rcases h with h | h <;> cases e <;> first | (cases h; done) | rfl

/-- Tokens without braces. -/
theorem braces_eq_nil (h : ∀ y ∈ toks, y.token ≠ .curlyOpen ∧ y.token ≠ .curlyClose) :
    braces toks = [] :=
  List.filterMap_eq_nil_iff.mpr fun y hy => Lexeme.brace_eq_none (h y hy)

/-- A brace counts one up or one down. -/
theorem braces_bounds : ∀ z ∈ braces toks, z ≤ 1 ∧ -1 ≤ z := by
  intro z hz
  obtain ⟨y, -, hy⟩ := List.mem_filterMap.mp hz
  unfold Lexeme.brace at hy
  split at hy
  · cases hy; decide
  split at hy
  · cases hy; decide
  · cases hy

/-- No scalar is a brace. -/
theorem scalarEvent_ne_brace {t : Token} (h : scalarEvent t = some e) :
    t ≠ .curlyOpen ∧ t ≠ .curlyClose := by
  constructor <;> rintro rfl <;> cases h

/-- No key is a brace. -/
theorem keyEvent_ne_brace {t : Token} (h : keyEvent t = some e) :
    t ≠ .curlyOpen ∧ t ≠ .curlyClose := by
  constructor <;> rintro rfl <;> cases h

/-- A token of a kind that is no brace counts for nothing. -/
theorem Lexeme.brace_of_ne {t : Token} (h : x.token = t) (ht : t ≠ .curlyOpen ∧ t ≠ .curlyClose) :
    x.brace = none := Lexeme.brace_eq_none (h ▸ ht)

/-- Separators count for nothing. -/
theorem Lexeme.brace_separator (h : x.isSeparator) : x.brace = none := by
  rcases Lexeme.isSeparator_iff.mp h with h | h
  · exact Lexeme.brace_of_ne h ⟨nofun, nofun⟩
  · exact Lexeme.brace_of_ne h ⟨nofun, nofun⟩

/-- The braces that a value reads are those that its event tells: one up for a table, none for a
scalar. -/
theorem IsValue.braces_eq (h : IsValue x depth e depth') : braces [x] = e.brace.toList := by
  rw [braces_cons]
  cases h with
  | scalar hscalar =>
    rw [Lexeme.brace_eq_none (scalarEvent_ne_brace hscalar),
      Event.brace_eq_none (.inr (scalarEvent_isScalar hscalar))]
    rfl
  | table hopen => rw [Lexeme.brace, if_pos hopen]; rfl

/-- The braces that an entry reads are those that its event tells, since keys have none. -/
theorem IsEntry.braces_eq (h : IsEntry depth used x e depth') :
    braces used = e.brace.toList := by
  cases h with
  | name hname => rw [braces_cons, Lexeme.brace_of_ne hname ⟨nofun, nofun⟩]; rfl
  | bracket hopen hkey hclose =>
    rw [braces_cons, braces_cons, braces_cons, Lexeme.brace_of_ne hopen ⟨nofun, nofun⟩,
      Lexeme.brace_eq_none (keyEvent_ne_brace hkey), Lexeme.brace_of_ne hclose ⟨nofun, nofun⟩,
      Event.brace_eq_none (.inl (keyEvent_isKey hkey))]
    rfl
  | value hvalue => exact hvalue.braces_eq

/-- The braces among the tokens of a move are those of its event: one for the start or the end of a
table, and none otherwise. -/
theorem Move.braces_eq (h : Move last depth noDefs used x e depth' noDefs') :
    braces used = e.brace.toList := by
  cases h with
  | document hopen => rw [braces_cons, Lexeme.brace, if_pos hopen]; rfl
  | @definition _ _ _ semis _ _ hsemis hname =>
    refine braces_eq_nil fun y hy => ?_
    rcases List.mem_append.mp hy with hy | hy
    · have hsemi : y.token = .semicolon := by simpa [Lexeme.isSemicolon] using hsemis y hy
      rw [hsemi]
      simp
    · rw [List.mem_singleton.mp hy, hname]
      simp
  | streamEnd _ heof => rw [braces_cons, Lexeme.brace_of_ne heof (by simp)]; rfl
  | value _ heq hvalue =>
    rw [braces_cons, Lexeme.brace_of_ne heq (by simp)]
    exact hvalue.braces_eq
  | firstEntry hentry => exact hentry.braces_eq
  | entry _ _ hsep hentry =>
    rw [braces_cons, Lexeme.brace_separator hsep]
    exact hentry.braces_eq
  | tableEnd _ _ hclose =>
    rw [braces_cons, Lexeme.brace, hclose]
    rfl
  | separatedTableEnd _ _ hsep hclose =>
    rw [braces_cons, braces_cons, Lexeme.brace_separator hsep, Lexeme.brace, hclose]
    rfl

/-- Below 2³² open tables the depth goes up by one, without wrapping around. -/
theorem deeper_eq (h : depth + 1 < 2 ^ 32) : deeper depth = depth + 1 := Nat.mod_eq_of_lt h

/-- A value moves the depth by the brace of its event, unless the depth wraps around. -/
theorem IsValue.depth_eq (h : IsValue x depth e depth')
    (hd : e = .tableStart → depth + 1 < 2 ^ 32) : (depth' : Int) = depth + e.brace.toList.sum := by
  cases h with
  | scalar hscalar => rw [Event.brace_eq_none (.inr (scalarEvent_isScalar hscalar))]; simp
  | table _ => rw [deeper_eq (hd rfl)]; rfl

/-- An entry moves the depth by the brace of its event, unless the depth wraps around. -/
theorem IsEntry.depth_eq (h : IsEntry depth used x e depth')
    (hd : e = .tableStart → depth + 1 < 2 ^ 32) : (depth' : Int) = depth + e.brace.toList.sum := by
  cases h with
  | name _ => exact (Int.add_zero _).symm
  | bracket _ hkey _ => rw [Event.brace_eq_none (.inl (keyEvent_isKey hkey))]; simp
  | value hvalue => exact hvalue.depth_eq hd

/-- While the depth has room, it follows the events. Only the start of a 2³²nd table would break
this. -/
theorem Move.depth_eq (h : Move last depth noDefs used x e depth' noDefs')
    (hd : e = .tableStart → depth + 1 < 2 ^ 32) : (depth' : Int) = depth + e.brace.toList.sum := by
  have hpop : depth ≠ 0 → ((depth - 1 : Nat) : Int) = depth + -1 := by omega
  cases h with
  | document _ => rw [deeper_eq (hd rfl)]; rfl
  | definition _ _ _ => exact (Int.add_zero _).symm
  | streamEnd _ _ => exact (Int.add_zero _).symm
  | value _ _ hvalue => exact hvalue.depth_eq hd
  | firstEntry hentry => exact hentry.depth_eq hd
  | entry _ _ _ hentry => exact hentry.depth_eq hd
  | tableEnd _ hne _ => exact hpop hne
  | separatedTableEnd _ hne _ _ => exact hpop hne

/-- No value closes a table. -/
theorem IsValue.brace_ne (h : IsValue x depth e depth') : e.brace ≠ some (-1) := by
  cases h with
  | scalar hscalar => rw [Event.brace_eq_none (.inr (scalarEvent_isScalar hscalar))]; nofun
  | table _ => nofun

/-- No entry closes a table. -/
theorem IsEntry.brace_ne (h : IsEntry depth used x e depth') : e.brace ≠ some (-1) := by
  cases h with
  | name _ => nofun
  | bracket _ hkey _ => rw [Event.brace_eq_none (.inl (keyEvent_isKey hkey))]; nofun
  | value hvalue => exact hvalue.brace_ne

/-- Wrapped around or not, the depth goes up by one modulo 2³². -/
theorem deeper_mod (depth : Nat) : (2 ^ 32 : Int) ∣ deeper depth - (depth + 1) := by
  unfold deeper
  omega

/-- A value moves the depth by the brace of its event modulo 2³², whatever the depth is. -/
theorem IsValue.depth_mod (h : IsValue x depth e depth') :
    (2 ^ 32 : Int) ∣ depth' - (depth + e.brace.toList.sum) := by
  cases h with
  | scalar hscalar => rw [Event.brace_eq_none (.inr (scalarEvent_isScalar hscalar))]; simp
  | table _ => exact deeper_mod depth

/-- An entry moves the depth by the brace of its event modulo 2³², whatever the depth is. -/
theorem IsEntry.depth_mod (h : IsEntry depth used x e depth') :
    (2 ^ 32 : Int) ∣ depth' - (depth + e.brace.toList.sum) := by
  cases h with
  | name _ => simp [Event.brace]
  | bracket _ hkey _ => rw [Event.brace_eq_none (.inl (keyEvent_isKey hkey))]; simp
  | value hvalue => exact hvalue.depth_mod

/-- The depth follows the events modulo 2³². This holds whatever the depth, as the counter wraps
around in both directions. -/
theorem Move.depth_mod (h : Move last depth noDefs used x e depth' noDefs') :
    (2 ^ 32 : Int) ∣ depth' - (depth + e.brace.toList.sum) := by
  have hpop : depth ≠ 0 → (2 ^ 32 : Int) ∣ (depth - 1 : Nat) - (depth + -1) := by omega
  cases h with
  | document _ => exact deeper_mod depth
  | definition _ _ _ => simp [Event.brace]
  | streamEnd _ _ => simp [Event.brace]
  | value _ _ hvalue => exact hvalue.depth_mod
  | firstEntry hentry => exact hentry.depth_mod
  | entry _ _ _ hentry => exact hentry.depth_mod
  | tableEnd _ hne _ => exact hpop hne
  | separatedTableEnd _ hne _ _ => exact hpop hne

/-- A table only ends inside of one. -/
theorem Move.depth_ne (h : Move last depth noDefs used x e depth' noDefs')
    (he : e.brace = some (-1)) : depth ≠ 0 := by
  cases h with
  | tableEnd _ hne _ => exact hne
  | separatedTableEnd _ hne _ _ => exact hne
  | document _ => cases he
  | definition _ _ _ => cases he
  | streamEnd _ _ => cases he
  | value _ _ hvalue => exact absurd he hvalue.brace_ne
  | firstEntry hentry => exact absurd he hentry.brace_ne
  | entry _ _ _ hentry => exact absurd he hentry.brace_ne

/-- The depth is zero at the end of the stream, if it is at the start. -/
theorem Move.depth_streamEnd (h : Move last depth noDefs used x .streamEnd depth' noDefs')
    (hstart : last = .streamStart → depth = 0) : depth' = 0 := by
  cases h with
  | streamEnd hlast _ => exact hlast.elim hstart And.right
  | value _ _ hvalue => exact absurd rfl hvalue.ne_streamEnd
  | firstEntry hentry => exact absurd rfl hentry.ne_streamEnd
  | entry _ _ _ hentry => exact absurd rfl hentry.ne_streamEnd

/-- The step on a value goes on or is an error; it never stops the parser. -/
theorem valueStep_ne_halted (pre toks : List Lexeme) :
    valueStep final depth noDefs pre toks ≠ .halted := by
  unfold valueStep
  dsimp only
  split
  · simp
  split <;> simp

/-- Nor does the step on a closing brace stop it. -/
theorem tableEndStep_ne_halted (pre toks : List Lexeme) :
    tableEndStep final depth noDefs pre toks ≠ .halted := by
  unfold tableEndStep
  dsimp only
  split <;> simp

/-- Nor does the step on an entry. -/
theorem entryStep_ne_halted (pre toks : List Lexeme) :
    entryStep final depth noDefs pre toks ≠ .halted := by
  unfold entryStep
  dsimp only
  split
  · simp
  split
  · split
    · simp
    split <;> simp
  split
  · exact valueStep_ne_halted pre toks
  · exact tableEndStep_ne_halted pre toks

/-- Nor does the step on a definition. -/
theorem definitionStep_ne_halted (toks : List Lexeme) :
    definitionStep final depth noDefs toks ≠ .halted := by
  unfold definitionStep
  dsimp only
  split
  · simp
  split <;> simp

/-- Nor does the step behind a key. -/
theorem keyStep_ne_halted (toks : List Lexeme) : keyStep final depth noDefs toks ≠ .halted := by
  unfold keyStep
  dsimp only
  split
  · exact valueStep_ne_halted _ _
  · simp

/-- Nor does the step behind a value: only the parser's own last events halt it. -/
theorem afterValueStep_ne_halted (toks : List Lexeme) :
    afterValueStep final depth noDefs toks ≠ .halted := by
  unfold afterValueStep
  dsimp only
  split
  · split
    · exact definitionStep_ne_halted toks
    split <;> simp
  split
  · exact entryStep_ne_halted _ _
  · exact tableEndStep_ne_halted _ _

/-- The call is no halt, unless the parser is at an end: it moves or fails. By the kind of the last
event, each of which has its own step. -/
theorem step_ne_halted (h : last ≠ .comment ∧ last ≠ .streamEnd ∧ last ≠ .error) :
    step final depth noDefs toks last ≠ .halted := by
  cases hkind : last.isKey with
  | true =>
    rw [step_of_isKey hkind]
    exact keyStep_ne_halted toks
  | false =>
    cases hends : last.endsValue with
    | true =>
      rw [step_of_endsValue hends]
      exact afterValueStep_ne_halted toks
    | false =>
      obtain ⟨hc, he, herr⟩ := h
      cases last <;> first | contradiction | skip
      · rw [step]
        split
        · simp
        · exact definitionStep_ne_halted toks
      · exact entryStep_ne_halted [] toks

end

end Eltn
