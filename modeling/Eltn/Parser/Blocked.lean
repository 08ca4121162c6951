import Eltn.Parser.Errors

/-!
# Calls that fail

What a call of the parser has read before the token that it fails at, and that it fails on all
tokens that start with the same kinds (`step_blocked`). For each part of `step` there is a condition
on the tokens left under which it fails, and the kinds of the tokens read are enough for it.
-/

namespace Eltn

open ParserState

/-- The kinds of tokens. -/
def kinds (toks : List Lexeme) : List Token := toks.map (·.token)

/-- A call comes to an error. -/
def Outcome.IsFailed (o : Outcome) : Prop := ∃ code t before, o = .failed code t before

/-- Of the tokens left, `read` was read and then `t`, and what is said of them holds of all tokens
that start with the same kinds. -/
structure Blocked (F : Lexeme → List Lexeme → Prop) (final : Lexeme) (toks : List Lexeme)
    (t : Lexeme) (read : List Lexeme) : Prop where
  read_eq : ∃ r, toks ++ [final] = read ++ t :: r
  blocks : ∀ {final' : Lexeme} {toks' : List Lexeme}, final'.token = .eof →
    kinds (read ++ [t]) <+: kinds (toks' ++ [final']) → F final' toks'

section
variable {final t x : Lexeme} {depth : Nat} {noDefs : Bool} {last : Event} {code : Token}
  {pre pre' before toks read : List Lexeme} {F G : Lexeme → List Lexeme → Prop}

/-- The first kind is that of the next token. -/
theorem kinds_head {k : Token} {ks : List Token} (hf : final.token = .eof)
    (h : k :: ks <+: kinds (toks ++ [final])) :
    (toks.headD final).token = k ∧ (k ≠ .eof → ks <+: kinds (toks.tail ++ [final])) := by
  cases toks with
  | nil =>
    obtain ⟨hk, -⟩ := List.cons_prefix_cons.mp h
    exact ⟨hk.symm, fun hne => absurd (hk.trans hf) hne⟩
  | cons y toks =>
    obtain ⟨hk, hks⟩ := List.cons_prefix_cons.mp h
    exact ⟨hk.symm, fun _ => hks⟩

/-- What depends on the kind of the next token. -/
theorem blocked_head (h : ∀ {final' : Lexeme} {toks' : List Lexeme},
    (toks'.headD final').token = (toks.headD final).token → F final' toks') :
    Blocked F final toks (toks.headD final) [] :=
  ⟨append_final toks final, fun hf hstart => h (kinds_head hf hstart).1⟩

/-- What depends on the kind of the next token and on those behind it is decided by one token more
than what depends on those behind it. -/
theorem Blocked.cons (hf : final.token = .eof) (hne : (toks.headD final).token ≠ .eof)
    (hstep : ∀ {final' : Lexeme} {toks' : List Lexeme},
      (toks'.headD final').token = (toks.headD final).token → G final' toks'.tail → F final' toks')
    (h : Blocked G final toks.tail t read) : Blocked F final toks t (toks.headD final :: read) := by
  obtain ⟨⟨r, hr⟩, hblocks⟩ := h
  obtain ⟨s, hs⟩ := append_final toks final
  -- the next token is not the end of the input, so that the kinds behind it are those of the tail
  have htail := (headD_of_append hs).2 (by rw [hf]; exact hne)
  refine ⟨⟨r, by rw [hs, ← htail, hr]; rfl⟩, fun hf' hstart => ?_⟩
  obtain ⟨hk, hks⟩ := kinds_head hf' hstart
  exact hstep hk (hblocks hf' (hks hne))

/-- What blocks a part of a step blocks the step. -/
theorem Blocked.imp (h : Blocked G final toks t read)
    (hstep : ∀ final' toks', G final' toks' → F final' toks') : Blocked F final toks t read :=
  ⟨h.read_eq, fun hf hstart => hstep _ _ (h.blocks hf hstart)⟩

/-- No value starts with the next token. -/
def NoValue (final : Lexeme) (toks : List Lexeme) : Prop :=
  scalarEvent (toks.headD final).token = none ∧ (toks.headD final).token ≠ .curlyOpen

/-- Where no value starts, the step on a value fails. -/
theorem valueStep_isFailed (h : NoValue final toks) :
    (valueStep final depth noDefs pre toks).IsFailed := by
  rw [valueStep, h.1]
  exact ⟨_, _, _, if_neg h.2⟩

/-- Where it fails, no value starts, whatever follows: the first token decides. -/
theorem valueStep_blocked (h : valueStep final depth noDefs pre toks = .failed code t before) :
    before = pre ∧ Blocked NoValue final toks t [] := by
  rw [valueStep] at h
  split at h
  · cases h
  · next hnone =>
    split at h
    · cases h
    · next hopen =>
      cases h
      exact ⟨rfl, blocked_head fun heq => ⟨by rw [heq]; exact hnone, by rw [heq]; exact hopen⟩⟩

/-- No table ends with the next token. -/
def NoTableEnd (depth : Nat) (final : Lexeme) (toks : List Lexeme) : Prop :=
  ¬ ((toks.headD final).token = .curlyClose ∧ depth > 0)

/-- Where no table ends, the step on a closing brace fails. -/
theorem tableEndStep_isFailed (h : NoTableEnd depth final toks) :
    (tableEndStep final depth noDefs pre toks).IsFailed := ⟨_, _, _, if_neg h⟩

/-- Where it fails, no table ends there: the first token and the depth decide. -/
theorem tableEndStep_blocked
    (h : tableEndStep final depth noDefs pre toks = .failed code t before) :
    before = pre ∧ Blocked (NoTableEnd depth) final toks t [] := by
  rw [tableEndStep] at h
  split at h
  · cases h
  · next hno =>
    cases h
    exact ⟨rfl, blocked_head fun heq => by rw [NoTableEnd, heq]; exact hno⟩

/-- Behind an opening bracket the next tokens are no key and its bracket. -/
def NoKey (final : Lexeme) (toks : List Lexeme) : Prop :=
  keyEvent (toks.headD final).token = none ∨ (toks.tail.headD final).token ≠ .squareClose

/-- The next tokens are no entry and no end of a table: no name, no bracket with a key behind it, no
value and no closing brace. -/
def NoEntry (depth : Nat) (final : Lexeme) (toks : List Lexeme) : Prop :=
  (toks.headD final).token ≠ .name ∧
    if (toks.headD final).token = .squareOpen then NoKey final toks.tail
    else NoValue final toks ∧ NoTableEnd depth final toks

/-- Where there is no entry and no end of a table, the step on an entry fails, whatever else the
tokens are. -/
theorem entryStep_isFailed (h : NoEntry depth final toks) :
    (entryStep final depth noDefs pre toks).IsFailed := by
  obtain ⟨hname, h⟩ := h
  rw [entryStep]
  dsimp only
  rw [if_neg hname]
  split at h
  · next hopen =>
    rw [if_pos hopen]
    rcases h with hkey | hclose
    · rw [hkey]
      exact ⟨_, _, _, rfl⟩
    · split
      · exact ⟨_, _, _, rfl⟩
      · exact ⟨_, _, _, if_neg hclose⟩
  · next hopen =>
    obtain ⟨hvalue, hend⟩ := h
    have hno : ¬ ((scalarEvent (toks.headD final).token).isSome = true ∨
        (toks.headD final).token = .curlyOpen) := by
      rw [hvalue.1]
      exact not_or.mpr ⟨Bool.false_ne_true, hvalue.2⟩
    rw [if_neg hopen, if_neg hno]
    exact tableEndStep_isFailed hend

/-- What may have been read of an entry: nothing, an opening bracket, or that and its key. A value
that is read ends the call. -/
inductive BegunEntry : List Lexeme → Prop
  | none : BegunEntry []
  | bracket {o : Lexeme} : o.token = .squareOpen → BegunEntry [o]
  | key {o x : Lexeme} {e : Event} : o.token = .squareOpen → keyEvent x.token = some e →
      BegunEntry [o, x]

/-- Where it fails, it has read the start of an entry at most, and no text with the same kinds of
tokens up to the failing one has an entry there. It fails at the token behind `[`, which is no key,
at the one behind the key, which is not `]`, or at a first token with which no entry starts. -/
theorem entryStep_blocked (hf : final.token = .eof)
    (h : entryStep final depth noDefs pre toks = .failed code t before) :
    ∃ read, before = pre ++ read ∧ BegunEntry read ∧
      Blocked (NoEntry depth) final toks t read := by
  rw [entryStep] at h
  dsimp only at h
  split at h
  · cases h
  next hname =>
  split at h
  · next hopen =>
    have hne : (toks.headD final).token ≠ .eof := by
      rw [hopen]
      decide
    have hentry {final' : Lexeme} {toks' : List Lexeme}
        (heq : (toks'.headD final').token = (toks.headD final).token)
        (hkey : NoKey final' toks'.tail) : NoEntry depth final' toks' := by
      rw [NoEntry, heq, if_pos hopen]
      exact ⟨hname, hkey⟩
    split at h
    · next hkey =>
      cases h
      refine ⟨[toks.headD final], rfl, .bracket hopen, .cons hf hne hentry ?_⟩
      exact blocked_head fun heq => .inl (by rw [heq]; exact hkey)
    · next e hkey =>
      split at h
      · cases h
      · next hclose =>
        cases h
        have hblocked : Blocked (fun final' toks' => (toks'.headD final').token ≠ .squareClose)
            final toks.tail.tail (toks.tail.tail.headD final) [] :=
          blocked_head fun heq => by rw [heq]; exact hclose
        exact ⟨[toks.headD final, toks.tail.headD final], rfl, .key hopen hkey,
          .cons hf hne hentry (.cons hf (keyEvent_ne_eof hkey) (fun _ hno => .inr hno) hblocked)⟩
  · next hopen =>
    have hentry {final' : Lexeme} {toks' : List Lexeme}
        (heq : (toks'.headD final').token = (toks.headD final).token)
        (hvalue : NoValue final' toks') (hend : NoTableEnd depth final' toks') :
        NoEntry depth final' toks' := by
      rw [NoEntry, heq, if_neg hopen]
      exact ⟨hname, hvalue, hend⟩
    split at h
    · next hstarts =>
      -- a value starts here, so that it does not fail
      rw [valueStep] at h
      split at h
      · cases h
      · next hnone =>
        rw [hnone] at hstarts
        rcases hstarts with hsome | hcurly
        · cases hsome
        · rw [if_pos hcurly] at h
          cases h
    · next hstarts =>
      obtain ⟨hscalar, hcurly⟩ := not_or.mp hstarts
      rw [tableEndStep] at h
      split at h
      · cases h
      · next hno =>
        cases h
        refine ⟨[], (List.append_nil pre).symm, .none, blocked_head fun heq => ?_⟩
        refine hentry heq ⟨?_, by rw [heq]; exact hcurly⟩ ?_
        · rw [heq]
          exact Option.not_isSome_iff_eq_none.mp hscalar
        · rw [NoTableEnd, heq]
          exact hno

/-- Behind semicolons the next tokens are no definition and no end of the input, which is looked for
only where no semicolon was read. -/
def NoDefinition (final : Lexeme) (toks : List Lexeme) : Prop :=
  ((toks.dropWhile (·.isSemicolon)).headD final).token ≠ .name ∧
    ¬ (toks.takeWhile (·.isSemicolon) = [] ∧
      ((toks.dropWhile (·.isSemicolon)).headD final).token = .eof)

/-- Where there is no definition and no end of the input, the step on a definition fails. -/
theorem definitionStep_isFailed (h : NoDefinition final toks) :
    (definitionStep final depth noDefs toks).IsFailed := by
  rw [definitionStep, if_neg h.1, if_neg h.2]
  exact ⟨_, _, _, rfl⟩

/-- Semicolons in tokens of the same kinds are as many, and the token behind them is of the same
kind. -/
theorem kinds_semicolons {semis : List Lexeme} (hf : final.token = .eof)
    (hsemis : ∀ y ∈ semis, y.isSemicolon) (ht : ¬ t.isSemicolon)
    (h : kinds (semis ++ [t]) <+: kinds (toks ++ [final])) :
    ((toks.dropWhile (·.isSemicolon)).headD final).token = t.token ∧
      (toks.takeWhile (·.isSemicolon) = [] ↔ semis = []) := by
  induction semis generalizing toks with
  | nil =>
    obtain ⟨hhead, -⟩ := kinds_head hf h
    cases toks with
    | nil => exact ⟨hhead, iff_of_true rfl rfl⟩
    | cons y toks =>
      have hy : ¬ y.isSemicolon = true := by
        rw [Lexeme.isSemicolon, show y.token = t.token from hhead]
        exact ht
      rw [List.takeWhile_cons_of_neg hy, List.dropWhile_cons_of_neg hy]
      exact ⟨hhead, iff_of_true rfl rfl⟩
  | cons z semis ih =>
    obtain ⟨hz, hsemis'⟩ := List.forall_mem_cons.mp hsemis
    have hkind : z.token = .semicolon := of_decide_eq_true hz
    have hne : z.token ≠ .eof := by
      rw [hkind]
      decide
    obtain ⟨hhead, htail⟩ := kinds_head hf h
    cases toks with
    | nil => exact absurd (hhead.symm.trans hf) hne
    | cons y toks =>
      have hy : y.isSemicolon = true := decide_eq_true (hhead.trans hkind)
      rw [List.takeWhile_cons_of_pos hy, List.dropWhile_cons_of_pos hy]
      exact ⟨(ih hsemis' (htail hne)).1, iff_of_false (List.cons_ne_nil _ _) (List.cons_ne_nil _ _)⟩

/-- Where it fails, it has read semicolons at most, and no text with the same kinds of tokens up to
the failing one has a definition there. -/
theorem definitionStep_blocked (hf : final.token = .eof)
    (h : definitionStep final depth noDefs toks = .failed code t before) :
    (∀ y ∈ before, y.isSemicolon) ∧ Blocked NoDefinition final toks t before := by
  rw [definitionStep] at h
  split at h
  · cases h
  next hname =>
  split at h
  · cases h
  next heof =>
  cases h
  have hsemis : ∀ y ∈ toks.takeWhile (·.isSemicolon), y.isSemicolon :=
    fun y hy => List.mem_takeWhile_imp hy
  have ht : ¬ ((toks.dropWhile (·.isSemicolon)).headD final).isSemicolon := by
    cases hd : toks.dropWhile (·.isSemicolon) with
    | nil => simp [Lexeme.isSemicolon, hf]
    | cons y r =>
      have hne : toks.dropWhile (fun x : Lexeme => x.isSemicolon) ≠ [] := by
        rw [hd]
        exact List.cons_ne_nil y r
      have hy := List.head_dropWhile_not (fun x : Lexeme => x.isSemicolon) hne
      simpa [hd] using hy
  refine ⟨hsemis, ⟨?_, fun hf' hstart => ?_⟩⟩
  · obtain ⟨r, hr⟩ := append_final (toks.dropWhile (·.isSemicolon)) final
    refine ⟨r, ?_⟩
    rw [← hr, ← List.append_assoc, List.takeWhile_append_dropWhile]
  · obtain ⟨hhead, hnil⟩ := kinds_semicolons hf' hsemis ht hstart
    rw [NoDefinition, hhead, hnil]
    exact ⟨hname, heof⟩

/-- The kind of the next token is among those that decide. So tokens of the same kinds are told
apart by nothing else. -/
theorem Blocked.head (h : Blocked G final toks t read) :
    Blocked (fun final' toks' => (toks'.headD final').token = (toks.headD final).token ∧
      G final' toks') final toks t read := by
  refine ⟨h.read_eq, fun hf hstart => ⟨?_, h.blocks hf hstart⟩⟩
  obtain ⟨r, hr⟩ := h.read_eq
  obtain ⟨s, hs⟩ := append_final toks final
  rw [hs] at hr
  cases read with
  | nil =>
    rw [(List.cons.inj hr).1]
    exact (kinds_head hf hstart).1
  | cons y read =>
    rw [(List.cons.inj hr).1]
    exact (kinds_head hf hstart).1

/-- What a call may have read before the token that it fails at, by the event of the call before it.
-/
inductive Begun : Event → Nat → Bool → List Lexeme → Prop
  | nothing {last : Event} {depth : Nat} {noDefs : Bool} : Begun last depth noDefs []
  | semicolons {last : Event} {depth : Nat} {noDefs : Bool} {semis : List Lexeme} :
      last = .streamStart ∨ (last.endsValue ∧ depth = 0 ∧ noDefs = false) →
      (∀ y ∈ semis, y.isSemicolon) → Begun last depth noDefs semis
  | equals {last : Event} {depth : Nat} {noDefs : Bool} {eq : Lexeme} :
      last.isKey → eq.token = .equals → Begun last depth noDefs [eq]
  | firstEntry {depth : Nat} {noDefs : Bool} {read : List Lexeme} :
      BegunEntry read → Begun .tableStart depth noDefs read
  | entry {last : Event} {depth : Nat} {noDefs : Bool} {sep : Lexeme} {read : List Lexeme} :
      last.endsValue → depth ≠ 0 → sep.isSeparator → BegunEntry read →
      Begun last depth noDefs (sep :: read)

/-- Behind a key it is the equals sign or the value that is missing: the tokens read before are the
front of what might follow, and other tokens of the same kinds fail as well. -/
theorem keyStep_blocked (hf : final.token = .eof) (hlast : last.isKey)
    (h : keyStep final depth noDefs toks = .failed code t before) :
    Begun last depth noDefs before ∧
      Blocked (fun final' toks' => (keyStep final' depth noDefs toks').IsFailed) final toks t
        before := by
  rw [keyStep] at h
  split at h
  · next hequals =>
    obtain ⟨rfl, hblocked⟩ := valueStep_blocked h
    refine ⟨.equals hlast hequals, .cons hf (by rw [hequals]; decide) (fun heq hno => ?_) hblocked⟩
    rw [keyStep, heq, if_pos hequals]
    exact valueStep_isFailed hno
  · next hequals =>
    cases h
    refine ⟨.nothing, blocked_head fun heq => ?_⟩
    rw [keyStep, heq, if_neg hequals]
    exact ⟨_, _, _, rfl⟩

/-- Behind a value it is a separator, an entry, the end of the table or a definition that is
missing, by the place where the value stands. At the top level a definition or the end is missing;
in a table it is the entry behind a separator, or the closing brace. -/
theorem afterValueStep_blocked (hf : final.token = .eof) (hlast : last.endsValue)
    (h : afterValueStep final depth noDefs toks = .failed code t before) :
    Begun last depth noDefs before ∧
      Blocked (fun final' toks' => (afterValueStep final' depth noDefs toks').IsFailed) final toks t
        before := by
  rw [afterValueStep] at h
  split at h
  · next hdepth =>
    split at h
    · next hdefs =>
      obtain ⟨hsemis, hblocked⟩ := definitionStep_blocked hf h
      refine ⟨.semicolons (.inr ⟨hlast, hdepth, by simpa using hdefs⟩) hsemis,
        hblocked.imp fun final' toks' hno => ?_⟩
      rw [afterValueStep, if_pos hdepth, if_pos hdefs]
      exact definitionStep_isFailed hno
    · next hdefs =>
      split at h
      · cases h
      · next heof =>
        cases h
        refine ⟨.nothing, blocked_head fun heq => ?_⟩
        rw [afterValueStep, if_pos hdepth, if_neg hdefs, heq, if_neg heof]
        exact ⟨_, _, _, rfl⟩
  · next hdepth =>
    split at h
    · next hsep =>
      obtain ⟨read, rfl, hread, hblocked⟩ := entryStep_blocked hf h
      refine ⟨.entry hlast hdepth (Lexeme.isSeparator_iff.mpr hsep) hread,
        .cons hf (by rcases hsep with h | h <;> rw [h] <;> decide) (fun heq hno => ?_) hblocked⟩
      rw [afterValueStep, if_neg hdepth, heq, if_pos hsep]
      exact entryStep_isFailed hno
    · next hsep =>
      obtain ⟨rfl, hblocked⟩ := tableEndStep_blocked h
      refine ⟨.nothing, hblocked.head.imp fun final' toks' hboth => ?_⟩
      obtain ⟨heq, hno⟩ := hboth
      rw [afterValueStep, if_neg hdepth, heq, if_neg hsep]
      exact tableEndStep_isFailed hno

/-- **A call that fails** has read the start of something that may stand there, and it fails on all
tokens that start with the same kinds. By cases on the last event, which says what may stand next.
-/
theorem step_blocked (hf : final.token = .eof)
    (h : step final depth noDefs toks last = .failed code t before) :
    Begun last depth noDefs before ∧
      Blocked (fun final' toks' => (step final' depth noDefs toks' last).IsFailed) final toks t
        before := by
  cases last with
  | streamStart =>
    rw [step] at h
    split at h
    · cases h
    · next hopen =>
      obtain ⟨hsemis, hblocked⟩ := definitionStep_blocked hf h
      refine ⟨.semicolons (.inl rfl) hsemis, hblocked.head.imp fun final' toks' hboth => ?_⟩
      obtain ⟨heq, hno⟩ := hboth
      rw [step, heq, if_neg hopen]
      exact definitionStep_isFailed hno
  | comment => cases h
  | defName => exact keyStep_blocked hf rfl h
  | keyString => exact keyStep_blocked hf rfl h
  | keyNumber => exact keyStep_blocked hf rfl h
  | keyInteger => exact keyStep_blocked hf rfl h
  | tableEnd => exact afterValueStep_blocked hf rfl h
  | valueString => exact afterValueStep_blocked hf rfl h
  | valueNumber => exact afterValueStep_blocked hf rfl h
  | valueInteger => exact afterValueStep_blocked hf rfl h
  | valueTrue => exact afterValueStep_blocked hf rfl h
  | valueFalse => exact afterValueStep_blocked hf rfl h
  | valueNil => exact afterValueStep_blocked hf rfl h
  | tableStart =>
    obtain ⟨read, rfl, hread, hblocked⟩ := entryStep_blocked hf h
    exact ⟨.firstEntry hread, hblocked.imp fun _ _ hno => entryStep_isFailed hno⟩
  | streamEnd => cases h
  | error => cases h

end

end Eltn
