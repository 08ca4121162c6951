import Eltn.Parser.Run

/-!
# What an error reports

An error gives the position and the text of the last token read. Its code comes from the token that
the failing case of `ELTN_Parser_next` holds, which is another one behind an opening bracket
(`expect_new_entry` reads a key, its caller keeps the bracket) and behind semicolons
(`expect_new_definition` skips them in its own copy of the token). `Stale` is the condition under
which the code is wrong for that reason (`error_describes_iff`).
-/

namespace Eltn

open ParserState

/-- The report of an error describes the token `t`: its code is the one for tokens of that kind, and
position and text are those of the token. -/
structure ErrorDescribes (s : ParserState) (t : Lexeme) : Prop where
  streamEnd_iff : s.errcode = .streamEnd ↔ t.token = .eof
  invalidToken_iff : s.errcode = .invalidToken ↔ t.token = .invalid
  unexpectedToken_iff : s.errcode = .unexpectedToken ↔ t.token ≠ .eof ∧ t.token ≠ .invalid
  line_eq : s.errline = t.line
  column_eq : s.errcolumn = t.column
  text_eq : s.textValue = t.text

/-- After the event `last`, the next tokens take a call to the end of the input or an invalid token,
behind a token that decides the code of the error. -/
inductive Stale : Event → Nat → Bool → List Lexeme → Prop
  | firstKey {depth : Nat} {noDefs : Bool} {o t : Lexeme} {r : List Lexeme} :
      o.token = .squareOpen → t.token = .eof ∨ t.token = .invalid →
      Stale .tableStart depth noDefs (o :: t :: r)
  | key {last : Event} {depth : Nat} {noDefs : Bool} {sep o t : Lexeme} {r : List Lexeme} :
      last.endsValue → depth ≠ 0 → sep.isSeparator → o.token = .squareOpen →
      t.token = .eof ∨ t.token = .invalid → Stale last depth noDefs (sep :: o :: t :: r)
  | definition {last : Event} {depth : Nat} {noDefs : Bool} {semis : List Lexeme} {t : Lexeme}
      {r : List Lexeme} : last = .streamStart ∨ (last.endsValue ∧ depth = 0 ∧ noDefs = false) →
      semis ≠ [] → (∀ y ∈ semis, y.isSemicolon) → t.token = .eof ∨ t.token = .invalid →
      Stale last depth noDefs (semis ++ t :: r)

section
variable {final t x : Lexeme} {depth : Nat} {noDefs : Bool} {last : Event} {code : Token}
  {pre before toks r : List Lexeme}

/-! ## Codes -/

/-- The code says that a token is unexpected for all but the invalid ones and the end of the input.
-/
theorem errorCode_unexpected {t : Token} (herr : t ≠ .error) :
    errorCode t = .unexpectedToken ↔ t ≠ .eof ∧ t ≠ .invalid := by
  cases t <;> first | exact absurd rfl herr | decide

/-- The code says that the stream has ended at the end of the input only. -/
theorem errorCode_streamEnd {t : Token} : errorCode t = .streamEnd ↔ t = .eof := by
  cases t <;> decide

/-- The code says that a token is invalid at invalid tokens only. -/
theorem errorCode_invalid {t : Token} : errorCode t = .invalidToken ↔ t = .invalid := by
  cases t <;> decide

/-- The report of an error describes the last token if the code is the one for that token, and only
then; `code` is the token that `signal_error` was called with. -/
theorem errorDescribes_iff {s : ParserState} (herr : t.token ≠ .error)
    (hcode : s.errcode = errorCode code) (hpos : s.errline = t.line ∧ s.errcolumn = t.column)
    (htext : s.text = some t.text) :
    ErrorDescribes s t ↔ errorCode code = errorCode t.token := by
  rw [← hcode]
  constructor
  · intro h
    by_cases heof : t.token = .eof
    · rw [h.streamEnd_iff.mpr heof, heof]
      rfl
    by_cases hinvalid : t.token = .invalid
    · rw [h.invalidToken_iff.mpr hinvalid, hinvalid]
      rfl
    · rw [h.unexpectedToken_iff.mpr ⟨heof, hinvalid⟩,
        (errorCode_unexpected herr).mpr ⟨heof, hinvalid⟩]
  · intro h
    refine ⟨?_, ?_, ?_, hpos.1, hpos.2, by rw [textValue, htext]; rfl⟩ <;> rw [h]
    · exact errorCode_streamEnd
    · exact errorCode_invalid
    · exact errorCode_unexpected herr

/-! ## Calls that fail -/

/-- The tokens left with the end of the input behind them start with the next token. -/
theorem append_final (toks : List Lexeme) (final : Lexeme) :
    ∃ r, toks ++ [final] = toks.headD final :: r := by
  cases toks with
  | nil => exact ⟨[], rfl⟩
  | cons x toks => exact ⟨toks ++ [final], rfl⟩

/-- What is read next, now or later, is a token left or the end of the input. -/
theorem headD_mem (h : r <:+ toks) (final : Lexeme) : r.headD final ∈ toks ++ [final] := by
  obtain ⟨r', hr⟩ := append_final r final
  obtain ⟨l, rfl⟩ := h
  rw [List.append_assoc, hr]
  simp

/-- Where no value starts, the code is that of the token in its place. -/
theorem valueStep_failed (h : valueStep final depth noDefs pre toks = .failed code t before) :
    code = t.token ∧ t = toks.headD final := by
  unfold valueStep at h
  dsimp only at h
  split at h
  · cases h
  split at h
  · cases h
  · cases h
    exact ⟨rfl, rfl⟩

/-- Where no table ends, the code is that of the token in the place of the brace. -/
theorem tableEndStep_failed
    (h : tableEndStep final depth noDefs pre toks = .failed code t before) :
    code = t.token ∧ t = toks.headD final := by
  unfold tableEndStep at h
  dsimp only at h
  split at h
  · cases h
  · cases h
    exact ⟨rfl, rfl⟩

/-- An entry fails at its last token, or behind a bracket: there the code is the one for the
bracket, while position and text are those of the token behind it. -/
theorem entryStep_failed (hf : final.token = .eof)
    (h : entryStep final depth noDefs pre toks = .failed code t before) :
    (code = t.token ∧ t ∈ toks ++ [final]) ∨ (code = .squareOpen ∧
      ∃ o r, o.token = .squareOpen ∧ toks ++ [final] = o :: t :: r) := by
  unfold entryStep at h
  dsimp only at h
  generalize hx : toks.headD final = y at h
  split at h
  · cases h
  split at h
  · next hopen =>
    obtain ⟨r, rfl⟩ := cons_of_headD hf hx (by rw [hopen]; nofun)
    rw [List.tail_cons] at h
    split at h
    · obtain ⟨r', hr⟩ := append_final r final
      cases h
      exact .inr ⟨rfl, y, r', hopen, congrArg (y :: ·) hr⟩
    split at h
    · cases h
    · cases h
      have hsuffix : r.tail <:+ y :: r := (List.tail_suffix r).trans (List.suffix_cons y r)
      exact .inl ⟨rfl, headD_mem hsuffix final⟩
  split at h
  · obtain ⟨rfl, rfl⟩ := valueStep_failed h
    exact .inl ⟨rfl, headD_mem List.suffix_rfl final⟩
  · obtain ⟨rfl, rfl⟩ := tableEndStep_failed h
    exact .inl ⟨rfl, headD_mem List.suffix_rfl final⟩

/-- A definition fails at its last token, or behind semicolons: there the code is the one for a
semicolon, while position and text are those of the token behind them. -/
theorem definitionStep_failed
    (h : definitionStep final depth noDefs toks = .failed code t before) :
    (code = t.token ∧ t ∈ toks ++ [final]) ∨ (code = .semicolon ∧ ∃ semis r, semis ≠ [] ∧
      (∀ y ∈ semis, y.isSemicolon) ∧ toks ++ [final] = semis ++ t :: r) := by
  unfold definitionStep at h
  dsimp only at h
  split at h
  · cases h
  split at h
  · cases h
  · by_cases hsemis : toks.takeWhile (·.isSemicolon) = []
    · rw [if_pos hsemis] at h
      cases h
      exact .inl ⟨rfl, headD_mem (List.dropWhile_suffix _) final⟩
    · rw [if_neg hsemis] at h
      obtain ⟨r, hr⟩ := append_final (toks.dropWhile (·.isSemicolon)) final
      cases h
      refine .inr ⟨rfl, _, r, hsemis, fun y => List.mem_takeWhile_imp, ?_⟩
      rw [← hr, ← List.append_assoc, List.takeWhile_append_dropWhile]

/-- Behind a key the code is that of the token last read, in the place of the equals sign or of the
value. -/
theorem keyStep_failed (h : keyStep final depth noDefs toks = .failed code t before) :
    code = t.token ∧ t ∈ toks ++ [final] := by
  unfold keyStep at h
  dsimp only at h
  split at h
  · obtain ⟨rfl, rfl⟩ := valueStep_failed h
    exact ⟨rfl, headD_mem (List.tail_suffix toks) final⟩
  · cases h
    exact ⟨rfl, headD_mem List.suffix_rfl final⟩

/-- The code of an error is the one for the last token read, unless the call is stale. `code` is the
token that the error is signalled for, and `t` the last one read. -/
def Blames (final : Lexeme) (last : Event) (depth : Nat) (noDefs : Bool) (toks : List Lexeme)
    (code : Token) (t : Lexeme) : Prop :=
  t ∈ toks ++ [final] ∧
    (errorCode code = errorCode t.token ∨ Stale last depth noDefs (toks ++ [final]))

/-- A code that is that of the last token read is blamed on that token, whatever the call. -/
theorem Blames.same (h : code = t.token ∧ t ∈ toks ++ [final]) :
    Blames final last depth noDefs toks code t := ⟨h.2, .inl (congrArg errorCode h.1)⟩

/-- Behind another token, the code is right unless the last token is the end or invalid. -/
theorem Blames.behind (herr : ∀ y ∈ toks ++ [final], y.token ≠ .error)
    (hcode : errorCode code = .unexpectedToken) (ht : t ∈ toks ++ [final])
    (hstale : t.token = .eof ∨ t.token = .invalid → Stale last depth noDefs (toks ++ [final])) :
    Blames final last depth noDefs toks code t := by
  refine ⟨ht, ?_⟩
  by_cases hend : t.token = .eof ∨ t.token = .invalid
  · exact .inr (hstale hend)
  · rw [not_or] at hend
    exact .inl (hcode.trans ((errorCode_unexpected (herr t ht)).mpr hend).symm)

/-- Where a definition is expected, the code is the one for the last token read, unless the call is
stale: behind semicolons it is the first of them that decides. -/
theorem definitionStep_blames (herr : ∀ y ∈ toks ++ [final], y.token ≠ .error)
    (hlast : last = .streamStart ∨ (last.endsValue ∧ depth = 0 ∧ noDefs = false))
    (h : definitionStep final depth noDefs toks = .failed code t before) :
    Blames final last depth noDefs toks code t := by
  rcases definitionStep_failed h with h | ⟨rfl, semis, r, hne, hsemis, htoks⟩
  · exact .same h
  · refine .behind herr rfl (by rw [htoks]; simp) fun hend => ?_
    rw [htoks]
    exact .definition hlast hne hsemis hend

/-- Behind a value the code is the one for the last token read, unless the call is stale: behind an
opening bracket it is the bracket that decides. -/
theorem afterValueStep_blames (hf : final.token = .eof)
    (herr : ∀ y ∈ toks ++ [final], y.token ≠ .error) (hlast : last.endsValue)
    (h : afterValueStep final depth noDefs toks = .failed code t before) :
    Blames final last depth noDefs toks code t := by
  unfold afterValueStep at h
  dsimp only at h
  generalize hy : toks.headD final = y at h
  have hmem : y ∈ toks ++ [final] := hy ▸ headD_mem List.suffix_rfl final
  split at h
  · next hdepth =>
    split at h
    · next hdefs =>
      exact definitionStep_blames herr (.inr ⟨hlast, hdepth, by simpa using hdefs⟩) h
    split at h
    · cases h
    · cases h
      exact .same ⟨rfl, hmem⟩
  next hdepth =>
  split at h
  · next hsep =>
    obtain ⟨r, rfl⟩ := cons_of_headD hf hy (by rcases hsep with h | h <;> rw [h] <;> simp)
    rw [List.tail_cons] at h
    rcases entryStep_failed hf h with ⟨hcode, ht⟩ | ⟨rfl, o, r', hopen, htoks⟩
    · exact .same ⟨hcode, List.mem_cons_of_mem _ ht⟩
    · refine .behind herr rfl (by rw [List.cons_append, htoks]; simp) fun hend => ?_
      rw [List.cons_append, htoks]
      exact .key hlast hdepth (Lexeme.isSeparator_iff.mpr hsep) hopen hend
  · obtain ⟨hcode, ht⟩ := tableEndStep_failed h
    exact .same ⟨hcode, by rw [ht, hy]; exact hmem⟩

/-- **A call that fails** blames the last token read, by cases on the event of the call before it.
-/
theorem step_failed (hf : final.token = .eof) (herr : ∀ y ∈ toks ++ [final], y.token ≠ .error)
    (h : step final depth noDefs toks last = .failed code t before) :
    Blames final last depth noDefs toks code t := by
  cases last with
  | streamStart =>
    rw [step] at h
    split at h
    · cases h
    · exact definitionStep_blames herr (.inl rfl) h
  | comment => cases h
  | defName => exact .same (keyStep_failed h)
  | keyString => exact .same (keyStep_failed h)
  | keyNumber => exact .same (keyStep_failed h)
  | keyInteger => exact .same (keyStep_failed h)
  | tableEnd => exact afterValueStep_blames hf herr rfl h
  | valueString => exact afterValueStep_blames hf herr rfl h
  | valueNumber => exact afterValueStep_blames hf herr rfl h
  | valueInteger => exact afterValueStep_blames hf herr rfl h
  | valueTrue => exact afterValueStep_blames hf herr rfl h
  | valueFalse => exact afterValueStep_blames hf herr rfl h
  | valueNil => exact afterValueStep_blames hf herr rfl h
  | tableStart =>
    rcases entryStep_failed hf h with h | ⟨rfl, o, r, hopen, htoks⟩
    · exact .same h
    · refine .behind herr rfl (by rw [htoks]; simp) fun hend => ?_
      rw [htoks]
      exact .firstKey hopen hend
  | streamEnd => cases h
  | error => cases h

/-! ## Stale calls -/

/-- The next tokens, in the list with the end of the input behind it. -/
theorem headD_of_append (h : toks ++ [final] = x :: r) :
    toks.headD final = x ∧ (x.token ≠ final.token → toks.tail ++ [final] = r) := by
  cases toks with
  | nil =>
    obtain ⟨rfl, rfl⟩ := List.cons.inj h
    exact ⟨rfl, fun hne => absurd rfl hne⟩
  | cons y toks =>
    obtain ⟨rfl, rfl⟩ := List.cons.inj h
    exact ⟨rfl, fun _ => rfl⟩

/-- A bracket in front of the end of the input or an invalid token. -/
theorem entryStep_stale {o : Lexeme} (hf : final.token = .eof) (hopen : o.token = .squareOpen)
    (hend : t.token = .eof ∨ t.token = .invalid) (htoks : toks ++ [final] = o :: t :: r) :
    entryStep final depth noDefs pre toks = .failed .squareOpen t (pre ++ [o]) := by
  obtain ⟨ho, htail⟩ := headD_of_append htoks
  obtain ⟨ht, -⟩ := headD_of_append (htail (by rw [hopen, hf]; nofun))
  have hkey : keyEvent t.token = none := by rcases hend with h | h <;> rw [h] <;> rfl
  simp only [entryStep, ho, hopen, ht, hkey, if_true, reduceCtorEq, if_false]

/-- The semicolons in front of a definition, in the list with the end of the input behind it, are
those in front of its first other token. -/
theorem semicolons_append (hf : final.token = .eof) {semis : List Lexeme}
    (hsemis : ∀ y ∈ semis, y.isSemicolon) (ht : ¬ t.isSemicolon)
    (htoks : toks ++ [final] = semis ++ t :: r) :
    toks.takeWhile (·.isSemicolon) = semis ∧
      (toks.dropWhile (·.isSemicolon)).headD final = t := by
  induction semis generalizing toks with
  | nil =>
    obtain ⟨hhead, -⟩ := headD_of_append htoks
    cases toks with
    | nil => exact ⟨rfl, hhead⟩
    | cons y toks =>
      obtain rfl : y = t := hhead
      rw [List.takeWhile_cons_of_neg ht, List.dropWhile_cons_of_neg ht]
      exact ⟨rfl, rfl⟩
  | cons z semis ih =>
    obtain ⟨hz, hsemis'⟩ := List.forall_mem_cons.mp hsemis
    have hne : z.token ≠ final.token := by
      rw [hf]
      intro heof
      rw [Lexeme.isSemicolon, heof] at hz
      cases hz
    obtain ⟨hhead, htail⟩ := headD_of_append htoks
    cases toks with
    | nil => exact absurd (congrArg Lexeme.token hhead).symm hne
    | cons y toks =>
      obtain rfl : y = z := hhead
      obtain ⟨htake, hdrop⟩ := ih hsemis' (htail hne)
      rw [List.tail_cons] at htake hdrop
      rw [List.takeWhile_cons_of_pos hz, List.dropWhile_cons_of_pos hz, htake]
      exact ⟨rfl, hdrop⟩

/-- Semicolons in front of the end of the input or an invalid token. -/
theorem definitionStep_stale (hf : final.token = .eof) {semis : List Lexeme}
    (hne : semis ≠ []) (hsemis : ∀ y ∈ semis, y.isSemicolon)
    (hend : t.token = .eof ∨ t.token = .invalid) (htoks : toks ++ [final] = semis ++ t :: r) :
    definitionStep final depth noDefs toks = .failed .semicolon t semis := by
  have ht : ¬ t.isSemicolon := by
    rcases hend with h | h <;> rw [Lexeme.isSemicolon, h] <;> simp
  have hname : t.token ≠ .name := by rcases hend with h | h <;> rw [h] <;> simp
  obtain ⟨htake, hdrop⟩ := semicolons_append hf hsemis ht htoks
  simp only [definitionStep, htake, hdrop, hname, hne, if_false, false_and]

/-- A stale call fails at the end of the input or an invalid token, as if it were another one: its
code is that of an unexpected token. -/
theorem Stale.step_eq (hf : final.token = .eof)
    (h : Stale last depth noDefs (toks ++ [final])) : ∃ code t before,
      step final depth noDefs toks last = .failed code t before ∧
        errorCode code = .unexpectedToken ∧ (t.token = .eof ∨ t.token = .invalid) := by
  generalize hall : toks ++ [final] = all at h
  cases h with
  | firstKey hopen hend => exact ⟨.squareOpen, _, _, entryStep_stale hf hopen hend hall, rfl, hend⟩
  | @key _ _ _ sep o t r hlast hdepth hsep hopen hend =>
    have hsep' := Lexeme.isSeparator_iff.mp hsep
    obtain ⟨hhead, htail⟩ := headD_of_append hall
    have hne : sep.token ≠ final.token := by
      rw [hf]
      rcases hsep' with h | h <;> rw [h] <;> simp
    refine ⟨.squareOpen, t, [sep] ++ [o], ?_, rfl, hend⟩
    rw [step_of_endsValue hlast, afterValueStep]
    simp only [hdepth, hhead, hsep', if_true, if_false]
    exact entryStep_stale hf hopen hend (htail hne)
  | @definition _ _ _ semis t r hlast hne hsemis hend =>
    have hdef : definitionStep final depth noDefs toks = .failed .semicolon t semis :=
      definitionStep_stale hf hne hsemis hend hall
    refine ⟨.semicolon, t, semis, ?_, rfl, hend⟩
    rcases hlast with rfl | ⟨hlast, hdepth, hdefs⟩
    · obtain ⟨y, semis, rfl⟩ := List.exists_cons_of_ne_nil hne
      have hy : y.token = .semicolon := by simpa [Lexeme.isSemicolon] using hsemis y (by simp)
      obtain ⟨hhead, -⟩ := headD_of_append hall
      rw [step, hhead, if_neg (by rw [hy]; simp)]
      exact hdef
    · rw [step_of_endsValue hlast, afterValueStep, if_pos hdepth, if_pos (by simp [hdefs])]
      exact hdef

end

/-! ## The report -/

namespace Parser

/-- The call that raises an error is the last one to change what a caller can see. From it on the
parser is at an end, and only reads tokens. -/
theorem exists_raised {τ : Type} (ts : TokenSource τ) {p : Parser τ} (hp : p.event ≠ .error)
    {n : Nat} (h : (p.after ts n).event = .error) :
    ∃ k < n, (p.after ts k).event ≠ .error ∧ (p.after ts (k + 1)).event = .error ∧
      observe (p.after ts n).toParserState = observe (p.after ts (k + 1)).toParserState := by
  induction n with
  | zero => exact absurd h hp
  | succ n ih =>
    by_cases hn : (p.after ts n).event = .error
    · obtain ⟨k, hk, hne, herr, hobs⟩ := ih hn
      refine ⟨k, Nat.lt_succ_of_lt hk, hne, herr, Eq.trans ?_ hobs⟩
      have hno : (p.after ts n).hasNext = false := by rw [ParserState.hasNext, hn]; rfl
      exact after_add_halted ts hno 1
    · exact ⟨n, Nat.lt_succ_self n, hn, h, rfl⟩

/-- The report of an error depends on what a caller can see. -/
theorem errorDescribes_congr {s s' : ParserState} (h : observe s = observe s') (t : Lexeme) :
    ErrorDescribes s t ↔ ErrorDescribes s' t := by
  have hcode : s.errcode = s'.errcode := congrArg (·.2.2.2.2.1) h
  have hline : s.errline = s'.errline := congrArg (·.2.2.2.2.2.1) h
  have hcolumn : s.errcolumn = s'.errcolumn := congrArg (·.2.2.2.2.2.2) h
  have htext : s.textValue = s'.textValue := congrArg (·.2.1) h
  constructor
  · intro ⟨h₁, h₂, h₃, h₄, h₅, h₆⟩
    rw [hcode] at h₁ h₂ h₃
    exact ⟨h₁, h₂, h₃, hline ▸ h₄, hcolumn ▸ h₅, htext ▸ h₆⟩
  · intro ⟨h₁, h₂, h₃, h₄, h₅, h₆⟩
    rw [← hcode] at h₁ h₂ h₃
    exact ⟨h₁, h₂, h₃, hline ▸ h₄, hcolumn ▸ h₅, htext ▸ h₆⟩

/-- A stale call raises an error, since what follows the semicolons or the bracket is nothing that
it could go on with. -/
theorem next_of_stale {p : Parser Stream} {c : Config} (hat : p.At c)
    (h : Stale c.event c.depth c.noDefs c.toks) : (p.next .stream).event = .error := by
  have hfollows := next_follows p (by rw [hat.event_eq]; exact hat.event_ne.1)
    (by rw [hat.depth_eq]; exact hat.depth_lt)
  have hne : c.event ≠ .streamEnd := by
    obtain ⟨last, depth, noDefs, toks⟩ := c
    rintro rfl
    cases h with
    | key hlast => cases hlast
    | definition hlast => rcases hlast with hlast | ⟨hlast, -⟩ <;> cases hlast
  have htoks := hat.toks_eq
  rw [if_neg hne] at htoks
  rw [htoks, ← hat.event_eq, ← hat.depth_eq, ← hat.noDefs_eq] at h
  obtain ⟨code, t, before, hstep, -⟩ := h.step_eq p.lexer.final_token
  rw [hstep] at hfollows
  exact hfollows.1

/-- A call that raises an error is a call that fails: its step has a token that the error is
signalled for, and one that was read last. -/
theorem next_failed {p : Parser Stream} {c : Config} (hat : p.At c)
    (herr : (p.next .stream).event = .error) : ∃ code t before,
    step p.lexer.final p.depth p.noDefs p.lexer.significant p.event = .failed code t before ∧
      Follows p.lexer p.toParserState (p.next .stream) (.failed code t before) := by
  have hfollows := next_follows p (by rw [hat.event_eq]; exact hat.event_ne.1)
    (by rw [hat.depth_eq]; exact hat.depth_lt)
  cases hstep : step p.lexer.final p.depth p.noDefs p.lexer.significant p.event with
  | halted =>
    rw [hstep] at hfollows
    have hstate : (p.next .stream).toParserState = { p.toParserState with lastEvent := p.event } :=
      hfollows
    have hevent : p.event = .error := by rw [← herr, hstate]
    exact absurd (hat.event_eq.symm.trans hevent) hat.event_ne.2
  | moved e depth noDefs x used =>
    rw [hstep] at hfollows
    obtain ⟨hmove, -⟩ := step_moved p.lexer.final_token hstep
    obtain ⟨-, -, hne, -⟩ := hmove.bounds (by rw [hat.depth_eq]; exact hat.depth_lt)
    exact absurd (hfollows.1.symm.trans herr) hne
  | failed code t before => exact ⟨code, t, before, rfl, hstep ▸ hfollows⟩

/-- A call that raises an error: the position and the text are those of the last token read, and the
code is the one for it unless the call is stale. -/
theorem next_error {p : Parser Stream} {c : Config} (hat : p.At c)
    (herr : (p.next .stream).event = .error) : ∃ t,
    (p.next .stream).lexer.read.head? = some t ∧
      ((p.next .stream).errline = t.line ∧ (p.next .stream).errcolumn = t.column) ∧
      (p.next .stream).textValue = t.text ∧
      (ErrorDescribes (p.next .stream).toParserState t ↔
        ¬ Stale p.event p.depth p.noDefs (p.lexer.significant ++ [p.lexer.final])) := by
  have htoks : ∀ y ∈ p.lexer.significant ++ [p.lexer.final], y.token ≠ .error := by
    intro y hy
    rcases List.mem_append.mp hy with hy | hy
    · exact (p.lexer.token_ne y (List.mem_filter.mp hy).1).2
    · rw [List.mem_singleton.mp hy, p.lexer.final_token]
      nofun
  obtain ⟨code, t, before, hstep, -, hcode, hpos, htext, hreads⟩ := next_failed hat herr
  have hhead : (p.next .stream).lexer.read.head? = some t := by
    rw [hreads.head_eq]
    simp
  obtain ⟨hmem, hcases⟩ := step_failed p.lexer.final_token htoks hstep
  have ht : t.token ≠ .error := htoks t hmem
  refine ⟨t, hhead, hpos, by rw [textValue, htext]; rfl, ?_⟩
  rw [errorDescribes_iff ht hcode hpos htext]
  constructor
  · intro heq hstale
    obtain ⟨code', t', before', hstep', hcode', hend⟩ := hstale.step_eq p.lexer.final_token
    cases hstep.symm.trans hstep'
    rw [heq] at hcode'
    have := (errorCode_unexpected ht).mp hcode'
    exact hend.elim this.1 this.2
  · exact hcases.resolve_right

/-- **What an error reports.** For every stream and every number of calls of `ELTN_Parser_next` on a
new parser that end in an error: one call has raised it. The line, the column and the text reported
are those of the last token that this call read, and the whole report, with its code, describes that
token exactly if the call was not stale. A stale call has read on behind semicolons or a bracket,
and signals the error for the token that it had before. -/
theorem error_describes_iff (s : Stream) (n : Nat)
    (h : ((new s).after .stream n).event = .error) :
    ∃ k < n, ((new s).after .stream k).event ≠ .error ∧
      ((new s).after .stream (k + 1)).event = .error ∧
      ∃ t, ((new s).after .stream (k + 1)).lexer.read.head? = some t ∧
        (((new s).after .stream n).errline = t.line ∧
          ((new s).after .stream n).errcolumn = t.column ∧
          ((new s).after .stream n).textValue = t.text) ∧
        (ErrorDescribes ((new s).after .stream n).toParserState t ↔
          ¬ Stale ((new s).after .stream k).event ((new s).after .stream k).depth
            ((new s).after .stream k).noDefs
            (((new s).after .stream k).lexer.significant ++
              [((new s).after .stream k).lexer.final])) := by
  obtain ⟨k, hk, hne, herr, hobs⟩ := exists_raised .stream (p := new s) nofun h
  have hsucc : (new s).after .stream (k + 1) = ((new s).after .stream k).next .stream :=
    Function.iterate_succ_apply' _ _ _
  refine ⟨k, hk, hne, herr, ?_⟩
  rcases reports_run k (new_at s) with ⟨-, c, -, hat⟩ | ⟨herr', -⟩
  · rw [hsucc] at herr hobs ⊢
    obtain ⟨t, hhead, hpos, htext, hiff⟩ := next_error hat herr
    refine ⟨t, hhead, ⟨?_, ?_, ?_⟩, (errorDescribes_congr hobs t).trans hiff⟩
    · exact (congrArg (·.2.2.2.2.2.1) hobs).trans hpos.1
    · exact (congrArg (·.2.2.2.2.2.2) hobs).trans hpos.2
    · exact (congrArg (·.2.1) hobs).trans htext
  · exact absurd herr' hne

/-- An equals sign at the start is described: the call is not stale. -/
theorem error_describes_example :
    let s : Stream := ⟨[⟨.equals, [0x3D], 1, 1⟩], ⟨.eof, [], 1, 2⟩, [], by decide, rfl⟩
    ErrorDescribes ((new s).after .stream 1).toParserState ⟨.equals, [0x3D], 1, 1⟩ := by
  intro s
  obtain ⟨k, hk, -, -, t, hhead, -, hiff⟩ := error_describes_iff s 1 (by decide)
  obtain rfl : k = 0 := by omega
  obtain rfl : (⟨.equals, [0x3D], 1, 1⟩ : Lexeme) = t := Option.some.inj hhead
  refine hiff.mpr fun hstale => ?_
  have hstale : Stale .streamStart 0 false [⟨.equals, [0x3D], 1, 1⟩, s.final] := hstale
  generalize htoks : [⟨.equals, [0x3D], 1, 1⟩, s.final] = toks at hstale
  cases hstale with
  | key hlast => cases hlast
  | @definition _ _ _ semis _ _ _ hne hsemis _ =>
    obtain ⟨y, semis, rfl⟩ := List.exists_cons_of_ne_nil hne
    obtain ⟨rfl, -⟩ := List.cons.inj htoks
    exact absurd (hsemis _ List.mem_cons_self) (by decide)

/-- Behind the bracket of `{ [`, the end of the input is reported as an unexpected token. The code
is that of the bracket. -/
theorem error_describes_fails :
    let s : Stream := ⟨[⟨.curlyOpen, [0x7B], 1, 1⟩, ⟨.squareOpen, [0x5B], 1, 3⟩],
      ⟨.eof, [], 1, 4⟩, [], by decide, rfl⟩
    ((new s).after .stream 2).event = .error ∧
      ((new s).after .stream 2).lexer.read.head? = some s.final ∧
      s.final.token = .eof ∧ ((new s).after .stream 2).errcode = .unexpectedToken ∧
      ¬ ErrorDescribes ((new s).after .stream 2).toParserState s.final := by
  intro s
  have hcode : ((new s).after .stream 2).errcode = .unexpectedToken := by decide
  refine ⟨by decide, by decide, rfl, hcode, fun h => ?_⟩
  exact (h.unexpectedToken_iff.mp hcode).1 rfl

end Parser

end Eltn
