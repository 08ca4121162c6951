import Eltn.Parser.Program

/-!
# The order of the operations

A call of `ELTN_Parser_next` sets the event once at most, for the token that it read last, which is
not an invalid one, and reports an error behind that at most (`Code.next_obeys`). So what is set for
a token is never mixed up with the text of another one, and an error, once it is reported, is the
last word of its call.
-/

namespace Eltn

open ParserState

/-- What a call has done: the token that it read last, if any, and whether it has set the event. -/
structure Progress where
  token : Option Token
  isSet : Bool

namespace Code

/-- An event is set where none was set, for the token that was read last, if it is valid. The
monitor notes that token and whether an event or an error was set. -/
def order : Program.Monitor Operation.Reply Progress where
  Allows a o :=
    match o with
    | .setEvent token _ => a = ⟨some token, false⟩ ∧ token ≠ .invalid
    | _ => True
  next a o reply :=
    match o, reply with
    | .lexerNextToken, read => { a with token := some read.1 }
    | .setEvent _ _, _ => { a with isSet := true }
    | .signalError _ _ _, _ => { a with isSet := true }
    | _, _ => a

/-- Tokens are read and nothing else is done. -/
def readsOnly : Program.Monitor Operation.Reply Unit where
  Allows _ o := o = .lexerNextToken
  next _ _ _ := ()

/-- `next_token` does nothing but read tokens. -/
theorem skipComments_readsOnly (fuel : Nat) :
    (skipComments fuel).Obeys readsOnly (fun _ _ => True) () := by
  induction fuel with
  | zero => exact ⟨rfl, fun _ => trivial⟩
  | succ fuel ih =>
    refine (Program.obeys_op_bind _ _).mpr ⟨rfl, fun read => ?_⟩
    split
    · exact ih
    · trivial

/-- The loop of `next_token` gives the token that it read last. -/
theorem skipComments_obeys (fuel : Nat) (a : Progress) :
    (skipComments fuel).Obeys order (fun read b => b = ⟨some read.1, a.isSet⟩) a := by
  induction fuel generalizing a with
  | zero => exact ⟨trivial, fun _ => rfl⟩
  | succ fuel ih =>
    refine (Program.obeys_op_bind _ _).mpr ⟨trivial, fun read => ?_⟩
    split
    · exact ih { a with token := some read.1 }
    · rfl

section
variable (fuel : Nat) {token : Token} {pos : Nat × Nat} {a : Progress}

/-- `expect_value` sets the event for the token it was given, at most once; and where it gives
`false`, nothing was set. -/
theorem expectValue_obeys :
    (expectValue token).Obeys order (fun result b => result = false → b = ⟨some token, false⟩)
      ⟨some token, false⟩ := by
  rw [expectValue]
  split
  · next hscalar =>
    refine ⟨⟨rfl, ?_⟩, fun _ h => by cases h⟩
    rintro rfl
    cases hscalar
  · split
    · next hopen =>
      subst hopen
      exact ⟨⟨rfl, fun h => by cases h⟩, fun _ => ⟨trivial, fun _ h => by cases h⟩⟩
    · exact fun _ => rfl

/-- `expect_table_start` does the same. -/
theorem expectTableStart_obeys :
    (expectTableStart token).Obeys order
      (fun result b => result = false → b = ⟨some token, false⟩) ⟨some token, false⟩ := by
  rw [expectTableStart]
  split
  · next hopen =>
    subst hopen
    exact ⟨⟨rfl, fun h => by cases h⟩, fun _ => ⟨trivial, fun _ h => by cases h⟩⟩
  · exact fun _ => rfl

/-- `expect_table_end` sets the event for a closing brace, which must then be the last token read.
-/
theorem expectTableEnd_obeys (h : token = .curlyClose → a = ⟨some token, false⟩) :
    (expectTableEnd token).Obeys order (fun _ _ => True) a := by
  refine (Program.obeys_op_bind _ _).mpr ⟨trivial, fun depth => ?_⟩
  split
  · next hclose =>
    obtain ⟨rfl, -⟩ := hclose
    exact ⟨⟨h rfl, fun h => by cases h⟩, fun _ => ⟨trivial, fun _ => trivial⟩⟩
  · trivial

/-- `expect_stream_end` sets the event at the end of the input, which must then be the last token
read. -/
theorem expectStreamEnd_obeys (h : token = .eof → a = ⟨some token, false⟩) :
    (expectStreamEnd token).Obeys order (fun _ _ => True) a := by
  rw [expectStreamEnd]
  split
  · next heof =>
    subst heof
    exact ⟨⟨h rfl, fun h => by cases h⟩, fun _ => trivial⟩
  · trivial

/-- Where the result is `false`, the token is still the one read last, or is no closing brace: so
what the caller does with its own token is in order. -/
theorem expectNewEntry_obeys :
    (expectNewEntry fuel token pos).Obeys order
      (fun result b => result.1 = false → token = .curlyClose → b = ⟨some token, false⟩)
      ⟨some token, false⟩ := by
  rw [expectNewEntry]
  split
  · next hname =>
    subst hname
    exact ⟨⟨rfl, fun h => by cases h⟩, fun _ h => by cases h⟩
  split
  · next hopen =>
    refine (skipComments_obeys fuel _).bind ?_
    rintro key _ rfl
    split
    · intro _ hclose
      rw [hopen] at hclose
      cases hclose
    · next hkey =>
      refine (Program.obeys_op_bind _ _).mpr ⟨⟨rfl, fun hinvalid => ?_⟩, fun _ => ?_⟩
      · rw [hinvalid] at hkey
        cases hkey
      refine (skipComments_obeys fuel _).bind fun close b _ => ?_
      split
      · exact ⟨trivial, fun _ h => by cases h⟩
      · exact fun h => by cases h
  · exact expectValue_obeys.bind fun result b h hresult _ => h hresult

/-- The loop of `expect_new_definition` gives the token that it read last; it reads none unless the
first one is a semicolon. -/
theorem skipSemicolons_obeys (turns : Nat) : ∀ {token : Token} {pos : Nat × Nat},
    (skipSemicolons fuel turns token pos).Obeys order
      (fun read b => b = ⟨some read.1, false⟩ ∧ (token ≠ .semicolon → read.1 = token))
      ⟨some token, false⟩ := by
  induction turns with
  | zero => exact ⟨rfl, fun _ => rfl⟩
  | succ turns ih =>
    intro token pos
    rw [skipSemicolons]
    split
    · next hsemi =>
      refine (skipComments_obeys fuel _).bind ?_
      rintro read _ rfl
      exact ih.mono fun _ _ h => ⟨h.1, fun hne => absurd hsemi hne⟩
    · exact ⟨rfl, fun _ => rfl⟩

/-- `expect_new_definition` sets the event for the name it finds. Where it finds none at the end of
the input, it has read nothing more, so the token is still the last one. -/
theorem expectNewDefinition_obeys :
    (expectNewDefinition fuel token pos).Obeys order
      (fun result b => result.1 = false → token = .eof → b = ⟨some token, false⟩)
      ⟨some token, false⟩ := by
  rw [expectNewDefinition]
  refine (skipSemicolons_obeys fuel _).bind ?_
  rintro read _ ⟨rfl, hsame⟩
  split
  · next hname =>
    refine ⟨⟨rfl, fun hinvalid => ?_⟩, fun _ h => by cases h⟩
    rw [hname] at hinvalid
    cases hinvalid
  · intro _ heof
    rw [hsame (by rw [heof]; exact fun h => by cases h)]

/-- A failed expectation ends in `signal_error`, which is allowed at any place of a call. -/
theorem orSignal_obeys {expected : Code Bool} {done : Bool → Progress → Prop}
    (h : expected.Obeys order done a) :
    (orSignal expected token pos).Obeys order (fun _ _ => True) a := by
  refine h.bind fun result b _ => ?_
  split
  · trivial
  · exact ⟨trivial, fun _ => trivial⟩

/-- The order holds where a definition is expected. -/
theorem nextDefinition_obeys :
    (nextDefinition fuel token pos).Obeys order (fun _ _ => True) ⟨some token, false⟩ := by
  refine (expectNewDefinition_obeys fuel).bind fun result b h => ?_
  split
  · trivial
  · next hresult =>
    exact orSignal_obeys (expectStreamEnd_obeys (h (Bool.eq_false_iff.mpr hresult)))

/-- The order holds where an entry is expected. -/
theorem nextEntry_obeys :
    (nextEntry fuel token pos).Obeys order (fun _ _ => True) ⟨some token, false⟩ := by
  refine (expectNewEntry_obeys fuel).bind fun result b h => ?_
  split
  · trivial
  · next hresult => exact orSignal_obeys (expectTableEnd_obeys (h (Bool.eq_false_iff.mpr hresult)))

/-- The order holds behind a key. -/
theorem nextValue_obeys :
    (nextValue fuel token pos).Obeys order (fun _ _ => True) ⟨some token, false⟩ := by
  rw [nextValue]
  split
  · exact ⟨trivial, fun _ => trivial⟩
  · refine (skipComments_obeys fuel _).bind ?_
    rintro read _ rfl
    exact orSignal_obeys expectValue_obeys

/-- The order holds behind a value. -/
theorem nextAfterValue_obeys :
    (nextAfterValue fuel token pos).Obeys order (fun _ _ => True) ⟨some token, false⟩ := by
  refine (Program.obeys_op_bind _ _).mpr ⟨trivial, fun depth => ?_⟩
  split
  · refine (Program.obeys_op_bind _ _).mpr ⟨trivial, fun noDefs => ?_⟩
    split
    · exact nextDefinition_obeys fuel
    · exact orSignal_obeys (expectStreamEnd_obeys fun _ => rfl)
  · split
    · refine (skipComments_obeys fuel _).bind ?_
      rintro read _ rfl
      exact nextEntry_obeys fuel
    · exact orSignal_obeys (expectTableEnd_obeys fun _ => rfl)

/-- The order holds at the start of the input. -/
theorem nextDocument_obeys :
    (nextDocument fuel token pos).Obeys order (fun _ _ => True) ⟨some token, false⟩ := by
  refine expectTableStart_obeys.bind fun result b h => ?_
  split
  · exact ⟨trivial, fun _ => trivial⟩
  · next hresult =>
    rw [h (Bool.eq_false_iff.mpr hresult)]
    exact nextDefinition_obeys fuel

/-- So it holds in every case of the `switch`, whatever the last event was. -/
theorem nextCase_obeys (lastEvent : Event) :
    (nextCase fuel lastEvent token pos).Obeys order (fun _ _ => True) ⟨some token, false⟩ := by
  cases lastEvent with
  | streamStart => exact nextDocument_obeys fuel
  | tableStart => exact nextEntry_obeys fuel
  | comment | streamEnd | error => trivial
  | defName | keyString | keyNumber | keyInteger => exact nextValue_obeys fuel
  | tableEnd | valueString | valueNumber | valueInteger | valueTrue | valueFalse | valueNil =>
    exact nextAfterValue_obeys fuel

/-- **The order of the operations of a call**: every call of `ELTN_Parser_next` obeys it, whatever
its tokens are. -/
theorem next_obeys : (next fuel).Obeys order (fun _ _ => True) ⟨none, false⟩ := by
  have hstart : startCall.Obeys order (fun _ b => b.isSet = false) ⟨none, false⟩ := by
    refine (Program.obeys_op_bind _ _).mpr ⟨trivial, fun event => ?_⟩
    split
    · exact ⟨trivial, fun _ => rfl⟩
    · rfl
  refine Program.Obeys.bind hstart ?_
  rintro - ⟨_, _⟩ rfl
  refine (skipComments_obeys fuel _).bind ?_
  rintro read _ rfl
  exact (Program.obeys_op_bind _ _).mpr ⟨trivial, fun lastEvent => nextCase_obeys fuel lastEvent⟩

end

end Code

end Eltn
