import Eltn.Parser.Blocked
import Eltn.Parser.Run

/-!
# Completions

Wherever calls have come to, and whatever of the next call has been read before an error, there are
tokens behind which the calls come to the end of the stream (`Begun.completes`). And what the
calls do depends on the kinds of the tokens (`Run.front`).
-/

namespace Eltn

open ParserState

/-! ## Tokens of the same kinds -/

section
variable {last e : Event} {depth depth' : Nat} {noDefs noDefs' : Bool} {used used' : List Lexeme}
  {x y : Lexeme} {toks toks' : List Lexeme} {c c' : Config} {l : Listing}

/-- The kinds of tokens are taken one token at a time. -/
theorem kinds_append : kinds (toks ++ toks') = kinds toks ++ kinds toks' := List.map_append

/-- Tokens with a given first kind have a first token of that kind. -/
theorem kinds_eq_cons {k : Token} {ks : List Token} (h : kinds toks = k :: ks) :
    ∃ y r, toks = y :: r ∧ y.token = k ∧ kinds r = ks := List.map_eq_cons_iff.mp h

/-- Tokens whose kinds fall into two parts fall into two parts themselves. -/
theorem kinds_eq_append {ks ks' : List Token} (h : kinds toks = ks ++ ks') :
    ∃ t t', toks = t ++ t' ∧ kinds t = ks ∧ kinds t' = ks' := List.map_eq_append_iff.mp h

/-- One kind alone is that of one token. -/
theorem kinds_eq_singleton {k : Token} (h : kinds toks = [k]) : ∃ y, toks = [y] ∧ y.token = k := by
  obtain ⟨y, r, rfl, hy, hr⟩ := kinds_eq_cons h
  obtain rfl := List.map_eq_nil_iff.mp hr
  exact ⟨y, rfl, hy⟩

/-- Whether a token starts a value, and with which event, is a matter of its kind. -/
theorem IsValue.congr (h : IsValue x depth e depth') (hy : y.token = x.token) :
    IsValue y depth e depth' := by
  cases h with
  | scalar hscalar => exact .scalar (hy ▸ hscalar)
  | table hopen => exact .table (hy.trans hopen)

/-- So it is for an entry and the kinds of its tokens. -/
theorem IsEntry.congr (h : IsEntry depth used x e depth') (hused : kinds used' = kinds used) :
    ∃ y, IsEntry depth used' y e depth' := by
  cases h with
  | name hname =>
    obtain ⟨y, rfl, hy⟩ := kinds_eq_singleton hused
    exact ⟨y, .name (hy.trans hname)⟩
  | bracket hopen hkey hclose =>
    obtain ⟨o, _, rfl, ho, hrest⟩ := kinds_eq_cons hused
    obtain ⟨y, _, rfl, hy, hrest⟩ := kinds_eq_cons hrest
    obtain ⟨c, rfl, hc⟩ := kinds_eq_singleton hrest
    exact ⟨y, .bracket (ho.trans hopen) (hy ▸ hkey) (hc.trans hclose)⟩
  | value hvalue =>
    obtain ⟨y, rfl, hy⟩ := kinds_eq_singleton hused
    exact ⟨y, .value (hvalue.congr hy)⟩

/-- Whether a token is a separator is a matter of its kind. -/
theorem isSeparator_congr (h : y.token = x.token) (hx : x.isSeparator) : y.isSeparator := by
  rw [Lexeme.isSeparator, h]
  exact hx

/-- Whether tokens are semicolons is a matter of their kinds. -/
theorem isSemicolon_congr {semis semis' : List Lexeme} (h : kinds semis' = kinds semis)
    (hsemis : ∀ y ∈ semis, y.isSemicolon) : ∀ y ∈ semis', y.isSemicolon := by
  intro y hy
  have hmem : y.token ∈ kinds semis := h ▸ List.mem_map_of_mem hy
  obtain ⟨z, hz, hzy⟩ := List.mem_map.mp hmem
  rw [Lexeme.isSemicolon, ← hzy]
  exact hsemis z hz

/-- A move is made on all tokens of the same kinds: no text and no position decides about it. By
cases on the move: its tokens are taken apart and the same kinds found in the others. -/
theorem Move.congr (h : Move last depth noDefs used x e depth' noDefs')
    (hused : kinds used' = kinds used) : ∃ y, Move last depth noDefs used' y e depth' noDefs' := by
  cases h with
  | document hopen =>
    obtain ⟨y, rfl, hy⟩ := kinds_eq_singleton hused
    exact ⟨y, .document (hy.trans hopen)⟩
  | definition hlast hsemis hname =>
    rw [kinds_append] at hused
    obtain ⟨semis, _, rfl, hsemis', hrest⟩ := kinds_eq_append hused
    obtain ⟨y, rfl, hy⟩ := kinds_eq_singleton hrest
    exact ⟨y, .definition hlast (isSemicolon_congr hsemis' hsemis) (hy.trans hname)⟩
  | streamEnd hlast heof =>
    obtain ⟨y, rfl, hy⟩ := kinds_eq_singleton hused
    exact ⟨y, .streamEnd hlast (hy.trans heof)⟩
  | value hlast heq hvalue =>
    obtain ⟨eq, _, rfl, heq', hrest⟩ := kinds_eq_cons hused
    obtain ⟨y, rfl, hy⟩ := kinds_eq_singleton hrest
    exact ⟨y, .value hlast (heq'.trans heq) (hvalue.congr hy)⟩
  | firstEntry hentry =>
    obtain ⟨y, hentry'⟩ := hentry.congr hused
    exact ⟨y, .firstEntry hentry'⟩
  | entry hlast hdepth hsep hentry =>
    obtain ⟨sep, _, rfl, hsep', hrest⟩ := kinds_eq_cons hused
    obtain ⟨y, hentry'⟩ := hentry.congr hrest
    exact ⟨y, .entry hlast hdepth (isSeparator_congr hsep' hsep) hentry'⟩
  | tableEnd hlast hdepth hclose =>
    obtain ⟨y, rfl, hy⟩ := kinds_eq_singleton hused
    exact ⟨y, .tableEnd hlast hdepth (hy.trans hclose)⟩
  | separatedTableEnd hlast hdepth hsep hclose =>
    obtain ⟨sep, _, rfl, hsep', hrest⟩ := kinds_eq_cons hused
    obtain ⟨y, rfl, hy⟩ := kinds_eq_singleton hrest
    exact ⟨y, .separatedTableEnd hlast hdepth (isSeparator_congr hsep' hsep) (hy.trans hclose)⟩

/-- One table more is one level more at most; fewer where the depth wraps around. -/
theorem deeper_le (depth : Nat) : deeper depth ≤ depth + 1 := Nat.mod_le _ _

/-- A value goes one level deeper at most. -/
theorem IsValue.depth_le (h : IsValue x depth e depth') : depth' ≤ depth + 1 := by
  cases h with
  | scalar _ => exact Nat.le_succ depth
  | table _ => exact deeper_le depth

/-- An entry goes one level deeper at most. -/
theorem IsEntry.depth_le (h : IsEntry depth used x e depth') : depth' ≤ depth + 1 := by
  cases h with
  | name _ => exact Nat.le_succ depth
  | bracket _ _ _ => exact Nat.le_succ depth
  | value hvalue => exact hvalue.depth_le

/-- A move goes no deeper than it reads tokens, so a short text never comes to 2³² open tables. -/
theorem Move.depth_le (h : Move last depth noDefs used x e depth' noDefs') :
    depth' ≤ depth + used.length := by
  have hlen : 0 < used.length := List.length_pos_iff.mpr h.used_ne.1
  have hle : depth' ≤ depth + 1 := by
    cases h with
    | document _ => exact deeper_le depth
    | definition _ _ _ => exact Nat.le_succ depth
    | streamEnd _ _ => exact Nat.le_succ depth
    | value _ _ hvalue => exact hvalue.depth_le
    | firstEntry hentry => exact hentry.depth_le
    | entry _ _ _ hentry => exact hentry.depth_le
    | tableEnd _ _ _ => omega
    | separatedTableEnd _ _ _ _ => omega
  omega

/-- **A run reads the tokens in front of those left**, and is made on all tokens of the same kinds
in front of any others. -/
theorem Run.front (h : Run c l c') : ∃ front, c.toks = front ++ c'.toks ∧
    c'.depth ≤ c.depth + front.length ∧
    ∀ {front' toks : List Lexeme}, kinds front' = kinds front →
      ∃ l', Run ⟨c.event, c.depth, c.noDefs, front' ++ toks⟩ l'
        ⟨c'.event, c'.depth, c'.noDefs, toks⟩ := by
  induction h with
  | refl c =>
    refine ⟨[], rfl, Nat.le_refl _, fun hfront => ?_⟩
    obtain rfl := List.map_eq_nil_iff.mp hfront
    exact ⟨[], .refl _⟩
  | @move last e depth depth' noDefs noDefs' used toks x l c' hmove _ ih =>
    obtain ⟨front, htoks, hdepth, hrun⟩ := ih
    have hle := hmove.depth_le
    refine ⟨used ++ front, ?_, ?_, fun hfront => ?_⟩
    · rw [List.append_assoc]
      exact congrArg (used ++ ·) htoks
    · rw [List.length_append]
      dsimp only at hdepth ⊢
      omega
    · rw [kinds_append] at hfront
      obtain ⟨used', front', rfl, hused, hfront⟩ := kinds_eq_append hfront
      obtain ⟨y, hmove'⟩ := hmove.congr hused
      obtain ⟨l', hrun'⟩ := hrun hfront
      rw [List.append_assoc]
      exact ⟨_, .move hmove' hrun'⟩

end

/-! ## The end of the stream is reached -/

/-- On the tokens and the end of the input, the calls come to the end of the stream. -/
def Finishes (last : Event) (depth : Nat) (noDefs : Bool) (toks : List Lexeme) : Prop :=
  ∀ final : Lexeme, final.token = .eof → ∃ l c', Run ⟨last, depth, noDefs, toks ++ [final]⟩ l c' ∧
    c'.event = .streamEnd ∧ c'.toks = []

/-- The name `a`. -/
def nameA : Lexeme := ⟨.name, ascii "a", 0, 0⟩

/-- An equals sign. -/
def equalsSign : Lexeme := ⟨.equals, ascii "=", 0, 0⟩

/-- The number 1. -/
def numberOne : Lexeme := ⟨.number, ascii "1", 0, 0⟩

/-- A closing bracket. -/
def closingBracket : Lexeme := ⟨.squareClose, ascii "]", 0, 0⟩

/-- A closing brace. -/
def closingBrace : Lexeme := ⟨.curlyClose, ascii "\x7d", 0, 0⟩

/-- The tokens that anything is completed with. -/
def endings : List Lexeme := [nameA, equalsSign, numberOne, closingBracket, closingBrace]

section
variable {last e : Event} {depth depth' : Nat} {noDefs noDefs' : Bool}
  {used read toks : List Lexeme} {x : Lexeme}

/-- What can be brought to the end of the stream behind a move can be brought there before it, with
the tokens of the move in front. -/
theorem Move.finishes (hmove : Move last depth noDefs used x e depth' noDefs')
    (h : Finishes e depth' noDefs' toks) : Finishes last depth noDefs (used ++ toks) := by
  intro final hf
  obtain ⟨l, c', hrun, hend⟩ := h final hf
  rw [List.append_assoc]
  exact ⟨_, c', .move hmove hrun, hend⟩

/-- At the start, and behind a value outside of all tables, the end of the input is the end of the
stream. -/
theorem finishes_nil (hlast : last = .streamStart ∨ (last.endsValue ∧ depth = 0)) :
    Finishes last depth noDefs [] := by
  intro final hf
  have hrun : Run ⟨last, depth, noDefs, [final] ++ []⟩ _ ⟨.streamEnd, depth, noDefs, []⟩ :=
    .single (.streamEnd hlast hf)
  exact ⟨_, _, hrun, rfl, rfl⟩

/-- Behind a value, the tables that are open are closed. -/
theorem endsValue_finishes (hlast : last.endsValue) :
    Finishes last depth noDefs (List.replicate depth closingBrace) := by
  induction depth generalizing last with
  | zero => exact finishes_nil (.inr ⟨hlast, rfl⟩)
  | succ depth ih =>
    have hmove : Move last (depth + 1) noDefs [closingBrace] _ .tableEnd depth noDefs :=
      .tableEnd (.inr hlast) (Nat.succ_ne_zero depth) rfl
    exact hmove.finishes (ih rfl)

/-- Behind an opening brace as many closing ones as tables are open lead there. -/
theorem tableStart_finishes (hdepth : depth ≠ 0) :
    Finishes .tableStart depth noDefs (List.replicate depth closingBrace) := by
  obtain ⟨d, rfl⟩ := Nat.exists_eq_succ_of_ne_zero hdepth
  have hmove : Move .tableStart (d + 1) noDefs [closingBrace] _ .tableEnd d noDefs :=
    .tableEnd (.inl rfl) hdepth rfl
  exact hmove.finishes (endsValue_finishes rfl)

/-- Behind an equals sign comes a number. -/
theorem equals_finishes (hlast : last.isKey) (hx : x.token = .equals) :
    Finishes last depth noDefs (x :: numberOne :: List.replicate depth closingBrace) := by
  have hmove : Move last depth noDefs [x, numberOne] _ .valueNumber depth noDefs :=
    .value hlast hx (.scalar rfl)
  exact hmove.finishes (endsValue_finishes rfl)

/-- What `read` is the start of can be completed. -/
def Completes (last : Event) (depth : Nat) (noDefs : Bool) (read : List Lexeme) : Prop :=
  ∃ more, (∀ x ∈ more, x ∈ endings) ∧ more.length ≤ depth + 4 ∧
    Finishes last depth noDefs (read ++ more)

/-- Closing braces are among the tokens that anything is completed with. -/
theorem replicate_endings {n : Nat} : ∀ x ∈ List.replicate n closingBrace, x ∈ endings := by
  intro x hx
  rw [List.eq_of_mem_replicate hx]
  simp [endings]

/-- So are a number and the closing braces behind it. -/
theorem numberOne_endings : ∀ x ∈ numberOne :: List.replicate depth closingBrace, x ∈ endings :=
  List.forall_mem_cons.mpr ⟨by simp [endings], replicate_endings⟩

/-- So are an equals sign, a number and the closing braces behind them. -/
theorem equalsSign_endings :
    ∀ x ∈ equalsSign :: numberOne :: List.replicate depth closingBrace, x ∈ endings :=
  List.forall_mem_cons.mpr ⟨by simp [endings], numberOne_endings⟩

/-- The start of a key between brackets is completed to a key by two tokens at most. -/
theorem BegunEntry.completes (h : BegunEntry read) : read = [] ∨
    ∃ more x e, (∀ x ∈ more, x ∈ endings) ∧ more.length ≤ 2 ∧ e.isKey ∧
      IsEntry depth (read ++ more) x e depth := by
  cases h with
  | none => exact .inl rfl
  | bracket hopen =>
    exact .inr ⟨[numberOne, closingBracket], numberOne, .keyNumber, by simp [endings],
      Nat.le_refl 2, rfl, .bracket hopen rfl rfl⟩
  | key hopen hkey =>
    exact .inr ⟨[closingBracket], _, _, by simp [endings], Nat.le_succ 1, keyEvent_isKey hkey,
      .bracket hopen hkey rfl⟩

/-- The start of an entry with a key, and what stands in front of it, can be completed: by the rest
of the key, a value and the braces that are missing. -/
theorem entry_completes {pre more : List Lexeme} (hmore : ∀ x ∈ more, x ∈ endings)
    (hlen : more.length ≤ 2) (hkey : e.isKey)
    (hmove : Move last depth noDefs (pre ++ more) x e depth noDefs) :
    Completes last depth noDefs pre := by
  refine ⟨more ++ equalsSign :: numberOne :: List.replicate depth closingBrace, ?_, ?_, ?_⟩
  · exact List.forall_mem_append.mpr ⟨hmore, equalsSign_endings⟩
  · simp only [List.length_append, List.length_cons, List.length_replicate]
    omega
  · rw [← List.append_assoc]
    exact hmove.finishes (equals_finishes hkey rfl)

/-- Before anything of the next move is read, any place but behind the last event of the parser can
be completed: by a value where one is due, and by the braces that close what is open. -/
theorem nothing_completes (hlast : last ≠ .comment ∧ last ≠ .streamEnd ∧ last ≠ .error)
    (hdepth : last = .tableStart → depth ≠ 0) : Completes last depth noDefs [] := by
  have hvalue : Finishes last depth noDefs (List.replicate depth closingBrace) →
      Completes last depth noDefs [] :=
    fun h => ⟨_, replicate_endings, by rw [List.length_replicate]; omega, h⟩
  have hkey : last.isKey → Completes last depth noDefs [] := fun h =>
    ⟨_, equalsSign_endings, by simp only [List.length_cons, List.length_replicate]; omega,
      equals_finishes h rfl⟩
  cases last with
  | streamStart => exact ⟨[], nofun, Nat.zero_le _, finishes_nil (.inl rfl)⟩
  | comment => exact absurd rfl hlast.1
  | defName => exact hkey rfl
  | keyString => exact hkey rfl
  | keyNumber => exact hkey rfl
  | keyInteger => exact hkey rfl
  | tableStart => exact hvalue (tableStart_finishes (hdepth rfl))
  | tableEnd => exact hvalue (endsValue_finishes rfl)
  | valueString => exact hvalue (endsValue_finishes rfl)
  | valueNumber => exact hvalue (endsValue_finishes rfl)
  | valueInteger => exact hvalue (endsValue_finishes rfl)
  | valueTrue => exact hvalue (endsValue_finishes rfl)
  | valueFalse => exact hvalue (endsValue_finishes rfl)
  | valueNil => exact hvalue (endsValue_finishes rfl)
  | streamEnd => exact absurd rfl hlast.2.1
  | error => exact absurd rfl hlast.2.2

/-- **What a failing call has read can be completed** by a few tokens, so that it does not fail and
comes to a place where a document can end. -/
theorem Begun.completes (h : Begun last depth noDefs read)
    (hlast : last ≠ .comment ∧ last ≠ .streamEnd ∧ last ≠ .error)
    (hdepth : last = .tableStart → depth ≠ 0) : Completes last depth noDefs read := by
  cases h with
  | nothing => exact nothing_completes hlast hdepth
  | semicolons hplace hsemis =>
    refine ⟨nameA :: equalsSign :: numberOne :: List.replicate depth closingBrace, ?_, ?_, ?_⟩
    · exact List.forall_mem_cons.mpr ⟨by simp [endings], equalsSign_endings⟩
    · simp only [List.length_cons, List.length_replicate]
      omega
    · rw [← List.singleton_append, ← List.append_assoc]
      exact (Move.definition hplace hsemis rfl).finishes (equals_finishes rfl rfl)
  | equals hkey heq =>
    refine ⟨_, numberOne_endings, ?_, equals_finishes hkey heq⟩
    simp only [List.length_cons, List.length_replicate]
    omega
  | firstEntry hread =>
    rcases hread.completes with rfl | ⟨more, x, e, hmore, hlen, hkey, hentry⟩
    · exact nothing_completes hlast hdepth
    · exact entry_completes hmore hlen hkey (.firstEntry hentry)
  | entry hvalue hne hsep hread =>
    rcases hread.completes with rfl | ⟨more, x, e, hmore, hlen, hkey, hentry⟩
    · obtain ⟨d, rfl⟩ := Nat.exists_eq_succ_of_ne_zero hne
      refine ⟨closingBrace :: List.replicate d closingBrace, ?_, ?_, ?_⟩
      · exact List.forall_mem_cons.mpr ⟨by simp [endings], replicate_endings⟩
      · simp only [List.length_cons, List.length_replicate]
        omega
      · have hmove : Move last (d + 1) noDefs [_, closingBrace] _ .tableEnd d noDefs :=
          .separatedTableEnd hvalue hne hsep rfl
        exact hmove.finishes (endsValue_finishes rfl)
    · exact entry_completes hmore hlen hkey (.entry hvalue hne hsep hentry)

end

/-! ## Where an error is raised -/

namespace Parser

/-- A call that fails raises an error, which is the event that it leaves. -/
theorem At.next_error_of_isFailed {p : Parser Stream} {last : Event} {depth : Nat} {noDefs : Bool}
    {toks : List Lexeme} {final : Lexeme} (hat : p.At ⟨last, depth, noDefs, toks ++ [final]⟩)
    (h : (step final depth noDefs toks last).IsFailed) : (p.next .stream).event = .error := by
  obtain ⟨code, t, before, hstep⟩ := h
  have hlast : last ≠ .streamEnd := by
    rintro rfl
    cases hstep
  have htoks := hat.toks_eq
  rw [if_neg hlast] at htoks
  obtain ⟨rfl, hfinal⟩ := List.append_inj' htoks rfl
  obtain rfl := List.singleton_inj.mp hfinal
  have hfollows := next_follows p (by rw [hat.event_eq]; exact hat.event_ne.1)
    (by rw [hat.depth_eq]; exact hat.depth_lt)
  rw [hat.event_eq, hat.depth_eq, hat.noDefs_eq, hstep] at hfollows
  exact hfollows.1

/-- A run that fails: no parser whose tokens start with the same kinds comes to the end of its
stream. -/
theorem event_ne_of_blocked {s' : Stream} {c : Config} {t : Lexeme}
    {front before : List Lexeme} {m : Nat}
    (hrun : ∀ {front' toks : List Lexeme}, kinds front' = kinds front →
      ∃ l', Run ⟨.streamStart, 0, false, front' ++ toks⟩ l' ⟨c.event, c.depth, c.noDefs, toks⟩)
    (hblocks : ∀ {final' : Lexeme} {toks' : List Lexeme}, final'.token = .eof →
      kinds (before ++ [t]) <+: kinds (toks' ++ [final']) →
      (step final' c.depth c.noDefs toks' c.event).IsFailed)
    (hstart : kinds (front ++ before ++ [t]) <+: kinds (s'.significant ++ [s'.final])) :
    ((new s').after .stream m).event ≠ .streamEnd := by
  obtain ⟨ks, hks⟩ := hstart
  rw [List.append_assoc, kinds_append, List.append_assoc] at hks
  obtain ⟨front', left, hall, hfront, hleft⟩ := kinds_eq_append hks.symm
  -- something stands behind the front, and its last token is the end of the input
  rcases List.eq_nil_or_concat left with rfl | ⟨toks, final, rfl⟩
  · rw [kinds_append] at hleft
    simp [kinds] at hleft
  rw [List.concat_eq_append] at hall hleft
  rw [← List.append_assoc] at hall
  obtain ⟨-, hfinal⟩ := List.append_inj' hall rfl
  obtain rfl := List.singleton_inj.mp hfinal
  obtain ⟨l', hrun'⟩ := @hrun front' (toks ++ [s'.final]) hfront
  have hnew := new_at s'
  rw [hall, List.append_assoc] at hnew
  obtain ⟨-, hat⟩ := run_reports hrun' hnew
  have herr := hat.next_error_of_isFailed (hblocks s'.final_token ⟨ks, hleft.symm⟩)
  refine event_ne_streamEnd .stream (n := l'.length + 1) ?_ m
  rw [after, Function.iterate_succ_apply']
  exact herr

/-- **Where an error is raised.** The token that an error is about is the first one behind which the
calls cannot come to the end of the stream any more: the tokens in front of it can be completed,
and no parser whose tokens have the same kinds up to and with it comes to the end. -/
theorem fails_first {s : Stream} (hs : Shallow s.significant) {n : Nat}
    (h : ((new s).after .stream n).event = .error) : ∃ front t r,
    s.significant ++ [s.final] = front ++ t :: r ∧
      (∃ more, (∀ x ∈ more, x ∈ endings) ∧ more.length ≤ front.length + 4 ∧
        Finishes .streamStart 0 false (front ++ more)) ∧
      (∀ {s' : Stream} {m : Nat}, kinds (front ++ [t]) <+: kinds (s'.significant ++ [s'.final]) →
        ((new s').after .stream m).event ≠ .streamEnd) ∧
      (((new s).after .stream n).errline = t.line ∧
        ((new s).after .stream n).errcolumn = t.column ∧
        ((new s).after .stream n).textValue = t.text) := by
  obtain ⟨k, -, hne, herr, hobs⟩ := exists_raised .stream (p := new s) nofun h
  have hsucc : (new s).after .stream (k + 1) = ((new s).after .stream k).next .stream :=
    Function.iterate_succ_apply' _ _ _
  rw [hsucc] at herr hobs
  rcases reports_run k (new_at s) with ⟨-, c, hrun, hat⟩ | ⟨herr', -⟩
  swap
  · exact absurd herr' hne
  obtain ⟨code, t, before, hstep, -, -, hpos, htext, -⟩ := next_failed hat herr
  rw [hat.event_eq, hat.depth_eq, hat.noDefs_eq] at hstep
  obtain ⟨hbegun, ⟨r, hr⟩, hblocks⟩ := step_blocked (Stream.final_token _) hstep
  have hend : c.event ≠ .streamEnd := by
    intro he
    rw [he] at hstep
    cases hstep
  obtain ⟨front, hfront, hdepth, hcongr⟩ := hrun.front
  rw [hat.toks_eq, if_neg hend, hr] at hfront
  dsimp only at hfront hdepth hcongr
  refine ⟨front ++ before, t, r, ?_, ?_, event_ne_of_blocked hcongr hblocks, ?_⟩
  · rw [hfront, List.append_assoc]
  · obtain ⟨more, hmore, hlen, hfinishes⟩ := hbegun.completes
      ⟨hat.event_ne.1, hend, hat.event_ne.2⟩ (hrun.tame (new_tame hs)).1.table
    refine ⟨more, hmore, ?_, fun final hf => ?_⟩
    · rw [List.length_append]
      omega
    · obtain ⟨l, c', hrun', hc'⟩ := hfinishes final hf
      obtain ⟨l', hrun⟩ := @hcongr front (before ++ more ++ [final]) rfl
      refine ⟨l' ++ l, c', ?_, hc'⟩
      rw [List.append_assoc front, List.append_assoc front]
      exact hrun.trans hrun'
  · refine ⟨?_, ?_, ?_⟩
    · exact (congrArg (·.2.2.2.2.2.1) hobs).trans hpos.1
    · exact (congrArg (·.2.2.2.2.2.2) hobs).trans hpos.2
    · have htext' : (((new s).after .stream k).next .stream).textValue = t.text := by
        rw [textValue, htext]
        rfl
      exact (congrArg (·.2.1) hobs).trans htext'

end Parser

end Eltn
