import Eltn.Parser.Residual
import Eltn.Parser.Strings

/-!
# The tokens of documents

How the parser wants a document to be written, as tokens that are not comments. Entries are
separated by commas or semicolons, and one may stand behind the last entry; any number of semicolons
may stand in front of a definition, and none behind the last one.

The relation between documents and tokens follows the shape of the document (`Value.Spelled`,
`Entries.Spelled`, `DefinitionsSpelled`), the parser that of its rules (`Derives`). The two agree:
what derives is a document that is spelled so and told so (`Derives.tells`), and what is spelled so
derives (`value_derives`).
-/

namespace Eltn

open ParserState

/-- A token with its text. -/
abbrev Item := Token × Bytes

/-- The scalar is written as the token. A number keeps the text of its token. A string is what the
unescaper makes of the text (`stringFor`), so that many tokens are written for one string; and
`nil`, `true` and `false` are the tokens that the lexer takes for them, whatever their texts are. -/
def Scalar.Spelled : Scalar → Item → Prop
  | .nil, x => x.1 = .nil
  | .true, x => x.1 = .booleanTrue
  | .false, x => x.1 = .booleanFalse
  | .number text, x => x = (.number, text)
  | .string value, x => (x.1 = .string ∨ x.1 = .longString) ∧ stringFor x.1 x.2 = value

/-- The key as a scalar. -/
def EntryKey.scalar : EntryKey → Scalar
  | .number text => .number text
  | .string value => .string value

/-- The key is written as the tokens: as a name, which stands for the string that is its text, or as
a number or a string between brackets. -/
inductive EntryKey.Spelled : EntryKey → List Item → Prop
  | name {text : Bytes} : EntryKey.Spelled (.string text) [(.name, text)]
  | bracket {key : EntryKey} {o x c : Item} : o.1 = .squareOpen → key.scalar.Spelled x →
      c.1 = .squareClose → EntryKey.Spelled key [o, x, c]

/-- What stands in front of the value of an entry: nothing, or a key and an equals sign. An entry
without a key is a value alone. -/
inductive KeySpelled : Option EntryKey → List Item → Prop
  | none : KeySpelled none []
  | some {key : EntryKey} {k : List Item} {eq : Item} : key.Spelled k → eq.1 = .equals →
      KeySpelled (some key) (k ++ [eq])

/-- A comma or a semicolon. -/
def IsSeparator (x : Item) : Prop := x.1 = .comma ∨ x.1 = .semicolon

mutual

/-- The value is written as the tokens: one for a scalar, and two braces around the entries for a
table. -/
def Value.Spelled : Value → List Item → Prop
  | .scalar s, toks => ∃ x, s.Spelled x ∧ toks = [x]
  | .table entries, toks => ∃ o c inner, o.1 = .curlyOpen ∧ entries.Spelled inner ∧
      c.1 = .curlyClose ∧ toks = o :: (inner ++ [c])

/-- The entries are written as the tokens, behind the brace that opens their table: the first entry
at once, the others behind separators. -/
def Entries.Spelled : Entries → List Item → Prop
  | .nil, toks => toks = []
  | .cons key value rest, toks => ∃ k v behind, KeySpelled key k ∧ value.Spelled v ∧
      rest.Follow behind ∧ toks = k ++ v ++ behind

/-- The entries are written as the tokens, behind another entry: each has one separator in front of
it, and behind the last one there may be one more. -/
def Entries.Follow : Entries → List Item → Prop
  | .nil, toks => toks = [] ∨ ∃ sep, IsSeparator sep ∧ toks = [sep]
  | .cons key value rest, toks => ∃ sep k v behind, IsSeparator sep ∧ KeySpelled key k ∧
      value.Spelled v ∧ rest.Follow behind ∧ toks = sep :: (k ++ v ++ behind)

end

/-- The definitions are written as the tokens: each is a name, an equals sign and a value. Any
number of semicolons may stand in front of a definition; none stands behind the last one, where the
parser does not accept it. -/
def DefinitionsSpelled : List (Bytes × Value) → List Item → Prop
  | [], toks => toks = []
  | d :: ds, toks => ∃ semis eq v behind, (∀ y ∈ semis, y.1 = Token.semicolon) ∧
      eq.1 = Token.equals ∧ d.2.Spelled v ∧ DefinitionsSpelled ds behind ∧
      toks = semis ++ (Token.name, d.1) :: eq :: (v ++ behind)

/-- The document is written as the tokens: one table in braces, or definitions without any. -/
def Document.Spelled : Document → List Item → Prop
  | .table entries, toks => (Value.table entries).Spelled toks
  | .definitions ds, toks => DefinitionsSpelled ds toks

/-- The kinds and texts of tokens. -/
def items (toks : List Lexeme) : List Item := toks.map fun x => (x.token, x.text)

@[simp] theorem items_nil : items [] = [] := rfl

@[simp] theorem items_cons (x : Lexeme) (toks : List Lexeme) :
    items (x :: toks) = (x.token, x.text) :: items toks := rfl

@[simp] theorem items_append (toks toks' : List Lexeme) :
    items (toks ++ toks') = items toks ++ items toks' := List.map_append

@[simp] theorem told_nil : Parser.told [] = [] := rfl

@[simp] theorem told_cons (e : Event) (t : Bytes) (l : Listing) :
    Parser.told ((e, t) :: l) = e.report (stringOf t) :: Parser.told l := rfl

@[simp] theorem told_append (l l' : Listing) :
    Parser.told (l ++ l') = Parser.told l ++ Parser.told l' := List.map_append

/-! ## What derives is a document -/

/-- What a derivation from a rule tells: a part of a document that is written as its tokens, and
whose events the listing has. Definitions are told one by one, so nothing is asked of their rules
here. -/
def Rule.Tells (rule : Rule) (toks : List Lexeme) (l : Listing) : Prop :=
  match rule with
  | .value => ∃ v : Value, v.Spelled (items toks) ∧ Parser.told l = v.events
  | .table => ∃ es, (Value.table es).Spelled (items toks) ∧
      Parser.told l = (Value.table es).events
  | .entrylist => ∃ es : Entries, es.Spelled (items toks) ∧ Parser.told l = es.events
  | .entryRest => ∃ es : Entries, es.Follow (items toks) ∧ Parser.told l = es.events
  | .entry => ∃ key v k t, KeySpelled key k ∧ Value.Spelled v t ∧ items toks = k ++ t ∧
      Parser.told l = key.toList.map EntryKey.event ++ v.events
  | .key => ∃ key : EntryKey, key.Spelled (items toks) ∧ Parser.told l = [key.event]
  | .deflist | .definition => True

section
variable {rule : Rule} {toks : List Lexeme} {l : Listing} {x : Lexeme} {e : Event}

/-- The string of a valid token, by its kind alone. -/
theorem Lexeme.Read.stringOf_eq (hx : x.Read) {t : Token} (ht : x.token = t)
    (hvalid : t ≠ .invalid) : stringOf x.text = stringFor t x.text := by
  rw [← hx.string_eq (ht ▸ hvalid), Lexeme.string, ht]

/-- A token that is a scalar for the parser is written for some scalar, and the event that the
parser reports for it, with its string, is the event of that scalar. -/
theorem scalar_tells (hx : x.Read) (h : scalarEvent x.token = some e) :
    ∃ s : Scalar, s.Spelled (x.token, x.text) ∧ e.report (stringOf x.text) = s.event := by
  cases htoken : x.token with
  | nil | booleanTrue | booleanFalse =>
    rw [htoken] at h
    cases h
    first
    | exact ⟨.nil, rfl, rfl⟩
    | exact ⟨.true, rfl, rfl⟩
    | exact ⟨.false, rfl, rfl⟩
  | number =>
    rw [htoken] at h
    cases h
    exact ⟨.number x.text, rfl, by rw [hx.stringOf_eq htoken (by simp)]; rfl⟩
  | string =>
    rw [htoken] at h
    cases h
    exact ⟨.string _, ⟨.inl rfl, rfl⟩, by rw [hx.stringOf_eq htoken (by simp)]; rfl⟩
  | longString =>
    rw [htoken] at h
    cases h
    exact ⟨.string _, ⟨.inr rfl, rfl⟩, by rw [hx.stringOf_eq htoken (by simp)]; rfl⟩
  | integer => exact absurd htoken hx.ne_integer
  | _ =>
    rw [htoken] at h
    cases h

/-- Likewise between brackets: a token that is a key for the parser is written for a number or for a
string, and is reported as that key. -/
theorem key_tells (hx : x.Read) (h : keyEvent x.token = some e) :
    ∃ key : EntryKey, key.scalar.Spelled (x.token, x.text) ∧
      e.report (stringOf x.text) = key.event := by
  cases htoken : x.token with
  | number =>
    rw [htoken] at h
    cases h
    exact ⟨.number x.text, rfl, by rw [hx.stringOf_eq htoken (by simp)]; rfl⟩
  | string =>
    rw [htoken] at h
    cases h
    exact ⟨.string _, ⟨.inl rfl, rfl⟩, by rw [hx.stringOf_eq htoken (by simp)]; rfl⟩
  | longString =>
    rw [htoken] at h
    cases h
    exact ⟨.string _, ⟨.inr rfl, rfl⟩, by rw [hx.stringOf_eq htoken (by simp)]; rfl⟩
  | integer => exact absurd htoken hx.ne_integer
  | _ =>
    rw [htoken] at h
    cases h

/-- The separators of the parser are those of the document. -/
theorem isSeparator_item (h : x.isSeparator) : IsSeparator (x.token, x.text) := by
  simpa [IsSeparator, Lexeme.isSeparator] using h

/-- **What derives is told.** The tokens of a derivation are written for a part of a document of the
kind that the rule is for, and the listing of the derivation tells the events of that part. By
induction on the derivation. The rules for definitions tell nothing here: a list of definitions is
read one definition at a time (`definitions_of_streamEnd`). -/
theorem Derives.tells (h : Derives rule toks l) (hread : ∀ x ∈ toks, x.Read) :
    rule.Tells toks l := by
  induction h with
  | noDefinition | deflist | definition | terminated => trivial
  | scalar hscalar =>
    obtain ⟨s, hs, hevent⟩ := scalar_tells (hread _ List.mem_cons_self) hscalar
    exact ⟨.scalar s, ⟨_, hs, rfl⟩, congrArg (fun r => [r]) hevent⟩
  | value _ ih =>
    obtain ⟨es, hes, htold⟩ := ih hread
    exact ⟨.table es, hes, htold⟩
  | emptyTable hopen hclose =>
    exact ⟨.nil, ⟨_, _, [], hopen, rfl, hclose, rfl⟩, rfl⟩
  | @table o c _ _ hopen _ hclose ih =>
    obtain ⟨es, hes, htold⟩ := ih fun x hx =>
      hread x (List.mem_append_left _ (List.mem_cons_of_mem _ hx))
    refine ⟨es, ⟨(o.token, o.text), (c.token, c.text), _, hopen, hes, hclose, by simp⟩, ?_⟩
    rw [told_append, told_cons, htold]
    rfl
  | entrylist _ _ ih ihs =>
    obtain ⟨key, v, k, t, hkey, hv, hkt, htold⟩ := ih fun x hx =>
      hread x (List.mem_append_left _ hx)
    obtain ⟨es, hes, htolds⟩ := ihs fun x hx => hread x (List.mem_append_right _ hx)
    refine ⟨.cons key v es, ⟨k, t, _, hkey, hv, hes, by rw [items_append, hkt]⟩, ?_⟩
    rw [told_append, htold, htolds]
    rfl
  | noEntry => exact ⟨.nil, .inl rfl, rfl⟩
  | separator hsep => exact ⟨.nil, .inr ⟨_, isSeparator_item hsep, rfl⟩, rfl⟩
  | entryRest hsep _ _ ih ihs =>
    obtain ⟨key, v, k, t, hkey, hv, hkt, htold⟩ := ih fun x hx =>
      hread x (List.mem_append_left _ (List.mem_cons_of_mem _ hx))
    obtain ⟨es, hes, htolds⟩ := ihs fun x hx => hread x (List.mem_append_right _ hx)
    refine ⟨.cons key v es, ⟨_, k, t, _, isSeparator_item hsep, hkey, hv, hes, ?_⟩, ?_⟩
    · rw [items_append, items_cons, hkt]
      rfl
    · rw [told_append, htold, htolds]
      rfl
  | @keyed _ eq _ _ _ _ heq _ ih ihs =>
    obtain ⟨key, hkey, htold⟩ := ih fun x hx => hread x (List.mem_append_left _ hx)
    obtain ⟨v, hv, htolds⟩ := ihs fun x hx =>
      hread x (List.mem_append_right _ (List.mem_cons_of_mem _ hx))
    have heq' : (eq.token, eq.text).1 = .equals := heq
    refine ⟨some key, v, _, _, .some hkey heq', hv, ?_, ?_⟩
    · simp
    · rw [told_append, htold, htolds]
      rfl
  | implicit _ ih =>
    obtain ⟨v, hv, htold⟩ := ih hread
    exact ⟨none, v, [], _, .none, hv, rfl, htold⟩
  | @name x hname =>
    refine ⟨.string x.text, ?_, ?_⟩
    · rw [items_cons, hname]
      exact .name
    · rw [told_cons, (hread x List.mem_cons_self).stringOf_eq hname (by simp)]
      rfl
  | bracket hopen hkey hclose =>
    obtain ⟨key, hspelled, hevent⟩ := key_tells (hread _ (by simp)) hkey
    exact ⟨key, .bracket hopen hspelled hclose, congrArg (fun r => [r]) hevent⟩

/-! ## A document derives -/

/-- Tokens whose kinds and texts fall into two parts fall into two parts themselves. -/
theorem items_eq_append {k v : List Item} (h : items toks = k ++ v) :
    ∃ toks₁ toks₂, toks = toks₁ ++ toks₂ ∧ items toks₁ = k ∧ items toks₂ = v :=
  List.map_eq_append_iff.mp h

/-- The same for a first token and the others. -/
theorem items_eq_cons {y : Item} {v : List Item} (h : items toks = y :: v) :
    ∃ x toks', toks = x :: toks' ∧ (x.token, x.text) = y ∧ items toks' = v :=
  List.map_eq_cons_iff.mp h

/-- The same for one token alone. -/
theorem items_eq_singleton {y : Item} (h : items toks = [y]) :
    ∃ x, toks = [x] ∧ (x.token, x.text) = y := by
  obtain ⟨x, toks', rfl, hx, hnil⟩ := items_eq_cons h
  obtain rfl : toks' = [] := List.map_eq_nil_iff.mp hnil
  exact ⟨x, rfl, hx⟩

/-- A token that is written for a scalar is one for the parser, and its event is the scalar's, with
the string that the unescaper makes of its text. -/
theorem scalarEvent_of_spelled {s : Scalar} (hx : x.Read) (h : s.Spelled (x.token, x.text)) :
    ∃ e, scalarEvent x.token = some e ∧ e.report (stringOf x.text) = s.event := by
  cases s with
  | nil | true | false =>
    have htoken : x.token = _ := h
    rw [htoken]
    exact ⟨_, rfl, rfl⟩
  | number text =>
    obtain ⟨htoken, rfl⟩ := Prod.mk.inj h
    rw [htoken, hx.stringOf_eq htoken (by simp)]
    exact ⟨_, rfl, rfl⟩
  | string value =>
    obtain ⟨htoken | htoken, rfl⟩ := h
    · have htoken' : x.token = .string := htoken
      rw [htoken', hx.stringOf_eq htoken' (by simp)]
      exact ⟨_, rfl, rfl⟩
    · have htoken' : x.token = .longString := htoken
      rw [htoken', hx.stringOf_eq htoken' (by simp)]
      exact ⟨_, rfl, rfl⟩

/-- A token that is written for a key between brackets is one for the parser, and its event is the
key's. -/
theorem keyEvent_of_spelled {key : EntryKey} (hx : x.Read)
    (h : key.scalar.Spelled (x.token, x.text)) :
    ∃ e, keyEvent x.token = some e ∧ e.report (stringOf x.text) = key.event := by
  cases key with
  | number text =>
    obtain ⟨htoken, rfl⟩ := Prod.mk.inj h
    rw [htoken, hx.stringOf_eq htoken (by simp)]
    exact ⟨_, rfl, rfl⟩
  | string value =>
    obtain ⟨htoken | htoken, rfl⟩ := h
    · have htoken' : x.token = .string := htoken
      rw [htoken', hx.stringOf_eq htoken' (by simp)]
      exact ⟨_, rfl, rfl⟩
    · have htoken' : x.token = .longString := htoken
      rw [htoken', hx.stringOf_eq htoken' (by simp)]
      exact ⟨_, rfl, rfl⟩

/-- The tokens that a key is written as derive from the rule for keys, and the derivation tells the
event of the key, whether it is written as a name or between brackets. -/
theorem key_derives {key : EntryKey} (h : key.Spelled (items toks)) (hread : ∀ x ∈ toks, x.Read) :
    ∃ l, Derives .key toks l ∧ Parser.told l = [key.event] := by
  generalize hitems : items toks = its at h
  cases h with
  | name =>
    obtain ⟨x, rfl, hx⟩ := items_eq_singleton hitems
    obtain ⟨htoken, rfl⟩ := Prod.mk.inj hx
    refine ⟨_, .name htoken, ?_⟩
    rw [told_cons, (hread x List.mem_cons_self).stringOf_eq htoken (by simp)]
    rfl
  | bracket hopen hkey hclose =>
    obtain ⟨o, _, rfl, rfl, htail⟩ := items_eq_cons hitems
    obtain ⟨x, _, rfl, rfl, hlast⟩ := items_eq_cons htail
    obtain ⟨c, rfl, rfl⟩ := items_eq_singleton hlast
    obtain ⟨e, he, hevent⟩ := keyEvent_of_spelled (hread x (by simp)) hkey
    exact ⟨_, .bracket hopen he hclose, congrArg (fun r => [r]) hevent⟩

/-- An entry derives once its value does: with the key and the equals sign in front of it, or
without any key. -/
theorem entry_derives {key : Option EntryKey} {v : Value} {k t : List Lexeme} {lv : Listing}
    (hkey : KeySpelled key (items k)) (hread : ∀ x ∈ k, x.Read) (hv : Derives .value t lv)
    (htold : Parser.told lv = v.events) : ∃ l, Derives .entry (k ++ t) l ∧
      Parser.told l = key.toList.map EntryKey.event ++ v.events := by
  generalize hitems : items k = its at hkey
  cases hkey with
  | none =>
    obtain rfl : k = [] := List.map_eq_nil_iff.mp hitems
    exact ⟨lv, .implicit hv, htold⟩
  | some hspelled heq =>
    obtain ⟨k, _, rfl, rfl, hlast⟩ := items_eq_append hitems
    obtain ⟨eq, rfl, rfl⟩ := items_eq_singleton hlast
    obtain ⟨l, hl, htold'⟩ := key_derives hspelled fun x hx => hread x (List.mem_append_left _ hx)
    refine ⟨l ++ lv, ?_, ?_⟩
    · rw [List.append_assoc]
      exact .keyed hl heq hv
    · rw [told_append, htold', htold]
      rfl

/-- A separator of the document is one for the parser. -/
theorem isSeparator_of_item (h : IsSeparator (x.token, x.text)) : x.isSeparator := by
  simpa [IsSeparator, Lexeme.isSeparator] using h

/-- A table derives once its entries do. The empty table has a rule of its own, since its entries
derive from nothing. -/
theorem table_derives {es : Entries} {o c : Lexeme} {inner : List Lexeme}
    (hopen : o.token = .curlyOpen) (hclose : c.token = .curlyClose)
    (hes : (es = .nil ∧ inner = []) ∨
      ∃ l, Derives .entrylist inner l ∧ Parser.told l = es.events) :
    ∃ l, Derives .table (o :: (inner ++ [c])) l ∧ Parser.told l = (Value.table es).events := by
  rcases hes with ⟨rfl, rfl⟩ | ⟨l, hl, htold⟩
  · exact ⟨_, .emptyTable hopen hclose, rfl⟩
  · refine ⟨_, .table hopen hl hclose, ?_⟩
    rw [told_append, told_cons, htold]
    rfl

mutual

/-- **What is spelled derives.** The tokens that a value is written as derive from the rule for
values, and the derivation tells the events of the value. By induction on the value, together with
its entries. -/
theorem value_derives : ∀ (v : Value) {toks : List Lexeme}, v.Spelled (items toks) →
    (∀ x ∈ toks, x.Read) → ∃ l, Derives .value toks l ∧ Parser.told l = v.events
  | .scalar s, toks, h, hread => by
    obtain ⟨_, hs, hitems⟩ := h
    obtain ⟨x, rfl, rfl⟩ := items_eq_singleton hitems
    obtain ⟨e, he, hevent⟩ := scalarEvent_of_spelled (hread x List.mem_cons_self) hs
    exact ⟨_, .scalar he, congrArg (fun r => [r]) hevent⟩
  | .table es, toks, h, hread => by
    obtain ⟨_, _, inner, hopen, hes, hclose, hitems⟩ := h
    obtain ⟨o, _, rfl, rfl, htail⟩ := items_eq_cons hitems
    obtain ⟨inner, _, rfl, rfl, hlast⟩ := items_eq_append htail
    obtain ⟨c, rfl, rfl⟩ := items_eq_singleton hlast
    obtain ⟨l, hl, htold⟩ := table_derives hopen hclose
      (entries_derives es hes fun x hx => hread x (by simp [hx]))
    exact ⟨l, .value hl, htold⟩

/-- Entries behind an opening brace: there are none, or they derive from the rule for the entries of
a table. -/
theorem entries_derives : ∀ (es : Entries) {toks : List Lexeme}, es.Spelled (items toks) →
    (∀ x ∈ toks, x.Read) → (es = .nil ∧ toks = []) ∨
      ∃ l, Derives .entrylist toks l ∧ Parser.told l = es.events
  | .nil, toks, h, hread => .inl ⟨rfl, List.map_eq_nil_iff.mp h⟩
  | .cons key v rest, toks, h, hread => by
    obtain ⟨_, _, _, hkey, hv, hrest, hitems⟩ := h
    obtain ⟨_, b, rfl, hfront, rfl⟩ := items_eq_append hitems
    obtain ⟨k, t, rfl, rfl, rfl⟩ := items_eq_append hfront
    obtain ⟨lv, hlv, htoldv⟩ := value_derives v hv fun x hx => hread x (by simp [hx])
    obtain ⟨l, hl, htold⟩ := entry_derives hkey (fun x hx => hread x (by simp [hx])) hlv htoldv
    obtain ⟨ls, hls, htolds⟩ := follow_derives rest hrest fun x hx => hread x (by simp [hx])
    refine .inr ⟨l ++ ls, .entrylist hl hls, ?_⟩
    rw [told_append, htold, htolds]
    rfl

/-- Entries behind another entry, where a separator may stand alone at the end. By recursion on the
entries, each of which has a separator in front. -/
theorem follow_derives : ∀ (es : Entries) {toks : List Lexeme}, es.Follow (items toks) →
    (∀ x ∈ toks, x.Read) → ∃ l, Derives .entryRest toks l ∧ Parser.told l = es.events
  | .nil, toks, h, hread => by
    rcases h with hnil | ⟨_, hsep, hitems⟩
    · obtain rfl : toks = [] := List.map_eq_nil_iff.mp hnil
      exact ⟨[], .noEntry, rfl⟩
    · obtain ⟨sep, rfl, rfl⟩ := items_eq_singleton hitems
      exact ⟨[], .separator (isSeparator_of_item hsep), rfl⟩
  | .cons key v rest, toks, h, hread => by
    obtain ⟨_, _, _, _, hsep, hkey, hv, hrest, hitems⟩ := h
    obtain ⟨sep, _, rfl, rfl, htail⟩ := items_eq_cons hitems
    obtain ⟨_, b, rfl, hfront, rfl⟩ := items_eq_append htail
    obtain ⟨k, t, rfl, rfl, rfl⟩ := items_eq_append hfront
    obtain ⟨lv, hlv, htoldv⟩ := value_derives v hv fun x hx => hread x (by simp [hx])
    obtain ⟨l, hl, htold⟩ := entry_derives hkey (fun x hx => hread x (by simp [hx])) hlv htoldv
    obtain ⟨ls, hls, htolds⟩ := follow_derives rest hrest fun x hx => hread x (by simp [hx])
    refine ⟨l ++ ls, .entryRest (isSeparator_of_item hsep) hl hls, ?_⟩
    rw [told_append, htold, htolds]
    rfl

end

/-! ## The tokens are valid -/

/-- Tokens of a document are valid. -/
def Valid (toks : List Item) : Prop := ∀ x ∈ toks, x.1 ≠ .invalid

theorem valid_cons {y : Item} {its : List Item} : Valid (y :: its) ↔ y.1 ≠ .invalid ∧ Valid its :=
  List.forall_mem_cons

theorem valid_append {k v : List Item} : Valid (k ++ v) ↔ Valid k ∧ Valid v :=
  List.forall_mem_append

theorem valid_nil : Valid [] := fun x hx => by cases hx

theorem valid_singleton {y : Item} {t : Token} (h : y.1 = t) (ht : t ≠ .invalid) : Valid [y] :=
  valid_cons.mpr ⟨h ▸ ht, valid_nil⟩

/-- No scalar is written as an invalid token. -/
theorem Scalar.Spelled.valid {s : Scalar} {y : Item} (h : s.Spelled y) : Valid [y] := by
  cases s with
  | nil | true | false => exact valid_singleton h (by simp)
  | number text => exact valid_singleton (congrArg Prod.fst h) (by simp)
  | string value => exact h.1.elim (valid_singleton · (by simp)) (valid_singleton · (by simp))

/-- Nor is a key with its equals sign. -/
theorem KeySpelled.valid {key : Option EntryKey} {k : List Item} (h : KeySpelled key k) :
    Valid k := by
  cases h with
  | none => exact valid_nil
  | some hkey heq =>
    refine valid_append.mpr ⟨?_, valid_singleton heq (by simp)⟩
    cases hkey with
    | name => exact valid_singleton rfl (by simp)
    | bracket hopen hspelled hclose =>
      have hlast := valid_singleton hclose (by simp)
      exact valid_append.mpr ⟨valid_singleton hopen (by simp),
        valid_append.mpr ⟨hspelled.valid, hlast⟩⟩

/-- Separators are valid tokens. -/
theorem IsSeparator.valid {y : Item} (h : IsSeparator y) : y.1 ≠ .invalid := by
  rcases h with h | h <;> rw [h] <;> simp

mutual

/-- The tokens of a value are valid, by induction on the value together with its entries. -/
theorem value_valid : ∀ (v : Value) {its : List Item}, v.Spelled its → Valid its
  | .scalar s, its, h => by
    obtain ⟨x, hs, rfl⟩ := h
    exact hs.valid
  | .table es, its, h => by
    obtain ⟨o, c, inner, hopen, hes, hclose, rfl⟩ := h
    exact valid_cons.mpr ⟨by rw [hopen]; simp,
      valid_append.mpr ⟨entries_valid es hes, valid_singleton hclose (by simp)⟩⟩

/-- The tokens of entries behind an opening brace are valid. -/
theorem entries_valid : ∀ (es : Entries) {its : List Item}, es.Spelled its → Valid its
  | .nil, its, h => by
    obtain rfl : its = [] := h
    exact valid_nil
  | .cons key v rest, its, h => by
    obtain ⟨k, t, b, hkey, hv, hrest, rfl⟩ := h
    exact valid_append.mpr
      ⟨valid_append.mpr ⟨hkey.valid, value_valid v hv⟩, follow_valid rest hrest⟩

/-- The tokens of entries behind another entry are valid. -/
theorem follow_valid : ∀ (es : Entries) {its : List Item}, es.Follow its → Valid its
  | .nil, its, h => by
    rcases h with rfl | ⟨sep, hsep, rfl⟩
    · exact valid_nil
    · exact valid_cons.mpr ⟨hsep.valid, valid_nil⟩
  | .cons key v rest, its, h => by
    obtain ⟨sep, k, t, b, hsep, hkey, hv, hrest, rfl⟩ := h
    exact valid_cons.mpr ⟨hsep.valid, valid_append.mpr
      ⟨valid_append.mpr ⟨hkey.valid, value_valid v hv⟩, follow_valid rest hrest⟩⟩

end

/-- The tokens of definitions are valid, with the semicolons in front of them. -/
theorem definitions_valid : ∀ (ds : List (Bytes × Value)) {its : List Item},
    DefinitionsSpelled ds its → Valid its
  | [], its, h => by
    obtain rfl : its = [] := h
    exact valid_nil
  | d :: ds, its, h => by
    obtain ⟨semis, eq, v, b, hsemis, heq, hv, hds, rfl⟩ := h
    refine valid_append.mpr ⟨fun y hy => by rw [hsemis y hy]; simp, ?_⟩
    exact valid_cons.mpr ⟨by simp, valid_cons.mpr ⟨by rw [heq]; simp,
      valid_append.mpr ⟨value_valid _ hv, definitions_valid ds hds⟩⟩⟩

/-- **The tokens of a document are valid**, so that the lexer reads no invalid one in it. -/
theorem Document.Spelled.valid {d : Document} {its : List Item} (h : d.Spelled its) :
    Valid its := by
  cases d with
  | table es => exact value_valid _ h
  | definitions ds => exact definitions_valid ds h

end

end Eltn
