import Eltn.Document.Texts
import Eltn.Unescape.Values

/-!
# A text for every document

`Document.text` writes a document: keys between brackets, strings as quoted literals in which every
byte that is not a printable character is an escape, and a space behind every token. Where the names
and the numbers of the document are tokens, the parser reads the text as that document
(`text_told`), whatever bytes the strings are.
-/

namespace Eltn

/-! ## Literals -/

/-- A hexadecimal digit. -/
def hexDigit (n : Nat) : UInt8 := UInt8.ofNat (if n < 10 then 0x30 + n else 0x61 + (n - 10))

/-- A printable character that stands for itself in a literal. -/
def standsForItself (c : UInt8) : Bool := 0x20 ≤ c && c ≤ 0x7E && c ≠ 0x22 && c ≠ 0x5C

/-- The element of a literal for a byte. -/
def elementFor (c : UInt8) : Element :=
  if standsForItself c then .plain c else .hex (hexDigit (c.toNat / 16)) (hexDigit (c.toNat % 16))

/-- A literal for a string. -/
def literal (value : Bytes) : Bytes := 0x22 :: (literalBody (value.map elementFor) ++ [0x22])

/-- What holds of the 256 bytes holds of every byte, so that a test by evaluation is enough. -/
theorem forall_byte {P : UInt8 → Prop} (h : ∀ i : Fin 256, P (UInt8.ofNat i)) (c : UInt8) :
    P c := by
  have hc := h ⟨c.toNat, c.toNat_lt⟩
  rwa [UInt8.ofNat_toNat] at hc

/-- The element that a byte is printed as may stand in a literal between double quotes. -/
theorem elementFor_ok (c : UInt8) : (elementFor c).Ok 0x22 :=
  forall_byte (P := fun c => (elementFor c).Ok 0x22) (by decide +kernel) c

/-- It stands for that byte alone. -/
theorem elementFor_documented (c : UInt8) : (elementFor c).documented = [c] :=
  forall_byte (P := fun c => (elementFor c).documented = [c]) (by decide +kernel) c

/-- It is the byte itself or its escape in hexadecimal digits. -/
theorem elementFor_cases (c : UInt8) :
    elementFor c = .plain c ∨ ∃ a b, elementFor c = .hex a b := by
  rw [elementFor]
  split
  · exact .inl rfl
  · exact .inr ⟨_, _, rfl⟩

section
variable {value : Bytes}

/-- What the printed elements of a string are, for the lexer and for the unescaper: none is an
escaped backslash or a `\u` escape, none has a newline, and none reads on into the next. -/
theorem literal_element {e : Element} (he : e ∈ value.map elementFor) :
    e.Ok 0x22 ∧ e.Proper 0x22 ∧ e.NewlineFirst ∧ e ≠ .escape 0x5C ∧ (∀ hs, e ≠ .unicode hs) ∧
      ∀ r, e.Ends r := by
  obtain ⟨c, -, rfl⟩ := List.mem_map.mp he
  have hok := elementFor_ok c
  rcases elementFor_cases c with h | ⟨a, b, h⟩
  · rw [h] at hok ⊢
    exact ⟨hok, hok, trivial, by simp, by simp, fun _ => trivial⟩
  · rw [h] at hok ⊢
    exact ⟨hok, hok, trivial, by simp, by simp, fun _ => trivial⟩

/-- A literal is one token, whatever bytes its string has: quotes, backslashes and newlines are
escaped in it. -/
theorem literal_isToken (value : Bytes) : IsToken (.string, literal value) (literal value) where
  head c hc := by
    cases hc
    rfl
  scan_eq := by
    rw [literal, scan_quote (.inr rfl)]
    refine Scan.quote_closed (.inr rfl) (fun e he => (literal_element he).1) ?_
      fun e he => (literal_element he).2.2.1
    intro hlast
    exact (literal_element (List.mem_of_getLast? hlast)).2.2.2.1 rfl
  kind := by simp

/-- The string of a literal is the one that it was made for, byte for byte. -/
theorem literal_string (value : Bytes) : stringFor .string (literal value) = value := by
  have hapart : ∀ value : Bytes, Apart (value.map elementFor) := by
    intro value
    induction value with
    | nil => trivial
    | cons c value ih =>
      have hc : elementFor c ∈ (c :: value).map elementFor := List.mem_cons_self
      exact ⟨(literal_element hc).2.2.2.2.2 _, ih⟩
  have hadded : ∀ e ∈ value.map elementFor, ∀ n, e.added n = e.documented := fun e he =>
    Element.added_eq (literal_element he).2.2.2.2.1
  rw [stringFor, if_pos rfl, literal, unescapeQuotedString_elements (.inr rfl)
    (fun e he => (literal_element he).2.1) (hapart value), assembled_flatMap hadded,
    List.nil_append, List.flatMap_map]
  simp [elementFor_documented]

end

/-! ## Tokens -/

/-- The token of a scalar: a word, the number as it is, or the string as a literal in quotes. -/
def Scalar.item : Scalar → Item
  | .nil => (.nil, ascii "nil")
  | .true => (.booleanTrue, ascii "true")
  | .false => (.booleanFalse, ascii "false")
  | .number text => (.number, text)
  | .string value => (.string, literal value)

/-- The tokens of a key and its equals sign. All keys are printed between brackets, names too. -/
def keyItems : Option EntryKey → List Item
  | none => []
  | some key => [(.squareOpen, ascii "["), key.scalar.item, (.squareClose, ascii "]"),
      (.equals, ascii "=")]

mutual

/-- The tokens of a value. -/
def Value.items : Value → List Item
  | .scalar s => [s.item]
  | .table es => (.curlyOpen, ascii "\x7b") :: (es.items ++ [(.curlyClose, ascii "\x7d")])

/-- The tokens of entries, behind the brace that opens their table. -/
def Entries.items : Entries → List Item
  | .nil => []
  | .cons key v rest => keyItems key ++ v.items ++ rest.itemsBehind

/-- The tokens of entries, behind another entry. -/
def Entries.itemsBehind : Entries → List Item
  | .nil => []
  | .cons key v rest => (.comma, ascii ",") :: (keyItems key ++ v.items ++ rest.itemsBehind)

end

/-- The tokens of definitions. -/
def definitionItems : List (Bytes × Value) → List Item
  | [] => []
  | d :: ds => (.name, d.1) :: (.equals, ascii "=") :: (d.2.items ++ definitionItems ds)

/-- The tokens of a document. -/
def Document.items : Document → List Item
  | .table es => (Value.table es).items
  | .definitions ds => definitionItems ds

/-- The text of a document. -/
def Document.text (d : Document) : Bytes := d.items.flatMap fun x => x.2 ++ [0x20]

/-! ## The tokens are those of the document -/

/-- The token that a scalar is printed as is one that it is written as. -/
theorem Scalar.item_spelled (s : Scalar) : s.Spelled s.item := by
  cases s with
  | string value => exact ⟨.inl rfl, literal_string value⟩
  | _ => rfl

/-- The tokens that a key is printed as, between brackets and with its equals sign, are ones that it
is written as. -/
theorem keyItems_spelled (key : Option EntryKey) : KeySpelled key (keyItems key) := by
  cases key with
  | none => exact .none
  | some key => exact .some (.bracket rfl key.scalar.item_spelled rfl) rfl

mutual

/-- **What is printed is spelled.** The tokens that a value is printed as are ones that it is
written as, by induction on the value together with its entries. -/
theorem value_spelled : ∀ v : Value, v.Spelled v.items
  | .scalar s => ⟨_, s.item_spelled, rfl⟩
  | .table es => ⟨_, _, _, rfl, entries_spelled es, rfl, rfl⟩

/-- The same for the entries of a table. -/
theorem entries_spelled : ∀ es : Entries, es.Spelled es.items
  | .nil => rfl
  | .cons key v rest =>
    ⟨_, _, _, keyItems_spelled key, value_spelled v, follow_spelled rest, rfl⟩

/-- The same for entries behind another one, with a comma in front of each. -/
theorem follow_spelled : ∀ es : Entries, es.Follow es.itemsBehind
  | .nil => .inl rfl
  | .cons key v rest => ⟨_, _, _, _, .inl rfl, keyItems_spelled key, value_spelled v,
      follow_spelled rest, rfl⟩

end

/-- The same for definitions, which are printed without semicolons. -/
theorem definitions_spelled : ∀ ds : List (Bytes × Value),
    DefinitionsSpelled ds (definitionItems ds)
  | [] => rfl
  | d :: ds => ⟨[], _, _, _, (fun y hy => by cases hy), rfl, value_spelled d.2,
      definitions_spelled ds, rfl⟩

/-- The same for documents. -/
theorem Document.items_spelled (d : Document) : d.Spelled d.items := by
  cases d with
  | table es => exact value_spelled (.table es)
  | definitions ds => exact definitions_spelled ds

/-! ## The tokens stand in the text -/

/-- The text of the token is the token. -/
def Standing (x : Item) : Prop := IsToken x x.2

/-- The number of a scalar is a token. -/
def Scalar.Printable : Scalar → Prop
  | .number text => Standing (.number, text)
  | _ => True

mutual

/-- The numbers of a value are tokens. -/
def Value.Printable : Value → Prop
  | .scalar s => s.Printable
  | .table es => es.Printable

/-- The numbers of entries are tokens. -/
def Entries.Printable : Entries → Prop
  | .nil => True
  | .cons key v rest => (∀ k ∈ key, k.scalar.Printable) ∧ v.Printable ∧ rest.Printable

end

/-- The names and the numbers of a document are tokens. -/
def Document.Printable : Document → Prop
  | .table es => es.Printable
  | .definitions ds => ∀ d ∈ ds, Standing (.name, d.1) ∧ d.2.Printable

/-- Whether a token stands for itself is a matter of one scan of its text, which can be run. -/
theorem standing_iff {x : Item} : Standing x ↔ x.2.head?.any isSpace = false ∧
    ((scan x.2).token = x.1 ∧ (scan x.2).text = x.2 ∧ (scan x.2).rest = []) ∧
    x.1 ∉ [.eof, .invalid, .comment, .longComment] := by
  constructor
  · rintro ⟨hhead, hscan, hkind⟩
    refine ⟨?_, by rw [hscan]; exact ⟨rfl, rfl, rfl⟩, hkind⟩
    rw [Option.any_eq_false]
    exact fun c hc => by rw [hhead c hc]
  · rintro ⟨hhead, ⟨htoken, htext, hrest⟩, hkind⟩
    rw [Option.any_eq_false] at hhead
    refine ⟨fun c hc => by simpa using hhead c hc, ?_, hkind⟩
    calc scan x.2
      _ = ⟨(scan x.2).token, (scan x.2).text, (scan x.2).rest⟩ := rfl
      _ = ⟨x.1, x.2, []⟩ := by rw [htoken, htext, hrest]

instance (x : Item) : Decidable (Standing x) := decidable_of_iff _ standing_iff.symm

/-- The tokens of one spelling, which is all that the printer writes besides numbers and strings. -/
def fixedItems : List Item :=
  [(.nil, ascii "nil"), (.booleanTrue, ascii "true"), (.booleanFalse, ascii "false"),
    (.squareOpen, ascii "["), (.squareClose, ascii "]"), (.curlyOpen, ascii "\x7b"),
    (.curlyClose, ascii "\x7d"), (.equals, ascii "="), (.comma, ascii ",")]

/-- The tokens that are the same in every document stand for themselves. -/
theorem fixed_standing : ∀ x ∈ fixedItems, Standing x := by decide +kernel

/-- The token of a scalar that can be printed stands for itself: a string is printed as a literal
that the lexer reads to its end. -/
theorem Scalar.item_standing {s : Scalar} (h : s.Printable) : Standing s.item := by
  cases s with
  | nil | true | false => exact fixed_standing _ (by simp [Scalar.item, fixedItems])
  | number text => exact h
  | string value => exact literal_isToken value

/-- So do the tokens of a key that can be printed. -/
theorem keyItems_standing {key : Option EntryKey} (h : ∀ k ∈ key, k.scalar.Printable) :
    ∀ x ∈ keyItems key, Standing x := by
  cases key with
  | none => simp [keyItems]
  | some key =>
    simp only [keyItems, List.forall_mem_cons]
    refine ⟨?_, Scalar.item_standing (h key rfl), ?_, ?_, by simp⟩
    all_goals exact fixed_standing _ (by simp [fixedItems])

mutual

/-- So do those of a value that can be printed, by induction on the value together with its entries.
-/
theorem Value.items_standing : ∀ {v : Value}, v.Printable → ∀ x ∈ v.items, Standing x
  | .scalar s, h => by
    rw [Value.items, List.forall_mem_singleton]
    exact s.item_standing h
  | .table es, h => by
    rw [Value.items, List.forall_mem_cons, List.forall_mem_append, List.forall_mem_singleton]
    refine ⟨?_, Entries.items_standing h, ?_⟩
    all_goals exact fixed_standing _ (by simp [fixedItems])

/-- So do those of the entries of a table. -/
theorem Entries.items_standing : ∀ {es : Entries}, es.Printable → ∀ x ∈ es.items, Standing x
  | .nil, h => by simp [Entries.items]
  | .cons key v rest, h => by
    rw [Entries.items, List.forall_mem_append, List.forall_mem_append]
    exact ⟨⟨keyItems_standing h.1, Value.items_standing h.2.1⟩, Entries.behind_standing h.2.2⟩

/-- So do those of entries behind another one. -/
theorem Entries.behind_standing : ∀ {es : Entries}, es.Printable →
    ∀ x ∈ es.itemsBehind, Standing x
  | .nil, h => by simp [Entries.itemsBehind]
  | .cons key v rest, h => by
    rw [Entries.itemsBehind, List.forall_mem_cons, List.forall_mem_append, List.forall_mem_append]
    refine ⟨?_, ⟨keyItems_standing h.1, Value.items_standing h.2.1⟩, Entries.behind_standing h.2.2⟩
    exact fixed_standing _ (by simp [fixedItems])

end

/-- So do those of definitions, whose names must be names. -/
theorem definitionItems_standing {ds : List (Bytes × Value)}
    (h : ∀ d ∈ ds, Standing (.name, d.1) ∧ d.2.Printable) :
    ∀ x ∈ definitionItems ds, Standing x := by
  induction ds with
  | nil => simp [definitionItems]
  | cons d ds ih =>
    obtain ⟨⟨hname, hvalue⟩, hds⟩ := List.forall_mem_cons.mp h
    rw [definitionItems, List.forall_mem_cons, List.forall_mem_cons, List.forall_mem_append]
    refine ⟨hname, ?_, Value.items_standing hvalue, ih hds⟩
    exact fixed_standing _ (by simp [fixedItems])

/-- **The tokens of a printable document stand for themselves**, so that its text is read as these
tokens again. -/
theorem Document.items_standing {d : Document} (h : d.Printable) : ∀ x ∈ d.items, Standing x := by
  cases d with
  | table es => exact Value.items_standing (v := .table es) h
  | definitions ds => exact definitionItems_standing h

/-- A space in front of a layout. -/
theorem Layout.space {ts : List Item} {r : Bytes} (h : Layout ts r) : Layout ts (0x20 :: r) := by
  cases h with
  | nil hblank =>
    have hsp : ∀ c ∈ [0x20], isSpace c = true := List.forall_mem_singleton.mpr rfl
    exact .nil (Scan.blank_spaces hsp hblank)
  | cons hgap hw hnext hr => exact .cons (.space (c := 0x20) (by decide) hgap) hw hnext hr

/-- Tokens with a space behind each, which no token goes on with: this is a layout of them. -/
theorem layout_spaced {ts : List Item} (h : ∀ x ∈ ts, Standing x) :
    Layout ts (ts.flatMap fun x => x.2 ++ [0x20]) := by
  induction ts with
  | nil => exact .nil .nil
  | cons x ts ih =>
    obtain ⟨hx, hts⟩ := List.forall_mem_cons.mp h
    have hkind := hx.kind
    have hnext : Follows x.1 x.2 (some 0x20) := by
      refine Scan.follows_insignificant ?_ ?_ (.inl rfl)
      · intro hinvalid
        simp [hinvalid] at hkind
      · intro hcomment
        simp [hcomment] at hkind
    have hlayout (r : Bytes) (hr : Layout ts (0x20 :: r)) : Layout (x :: ts) (x.2 ++ 0x20 :: r) :=
      Layout.cons (r := 0x20 :: r) Gap.nil hx hnext hr
    rw [List.flatMap_cons, List.append_assoc]
    exact hlayout _ (ih hts).space

/-- A document is written as its text. -/
theorem Document.text_writtenAs {d : Document} (h : d.Printable) : d.WrittenAs d.text :=
  ⟨d.items, d.items_spelled, layout_spaced (d.items_standing h)⟩

/-! ## Documents that can be written -/

/-- A run that takes all bytes has them as its text. -/
theorem Scan.run_text {p : UInt8 → Bool} {f : Bytes → Token} {text r : Bytes}
    (h : (Scan.run p f text r).rest = []) : (Scan.run p f text r).text = text ++ r := by
  have hsplit := List.takeWhile_append_dropWhile (p := p) (l := r)
  rw [show r.dropWhile p = [] from h, List.append_nil] at hsplit
  rw [Scan.run, hsplit]

/-- A number or a name that takes all bytes has them as its text; nothing is dropped from either. By
the cases of the first byte: only a run gives these kinds, and the text of a run is what it takes.
-/
theorem Scan.lead_whole {c : UInt8} {r : Bytes}
    (h : (Scan.lead c r).token = .number ∨ (Scan.lead c r).token = .name)
    (hrest : (Scan.lead c r).rest = []) : (Scan.lead c r).text = c :: r := by
  -- of the kinds a token may have, a number and a name are those of a run
  have hno {kinds : List Token} (hmem : (Scan.lead c r).token ∈ kinds)
      (hkinds : .number ∉ kinds ∧ .name ∉ kinds) : False := by
    rcases h with h | h
    · exact hkinds.1 (h ▸ hmem)
    · exact hkinds.2 (h ▸ hmem)
  cases Scan.lead_cases c r with
  | squareOpen hr hlead =>
    exact (hno (by rw [hlead r hr]; exact List.mem_singleton_self _) (by simp)).elim
  | longString hd hlead => exact (hno (by rw [hlead]; exact longString_mem _ _ _ _) (by simp)).elim
  | punctuation hp hlead => exact (hno (by rw [hlead]; exact (punctuation_mem hp).1) (by simp)).elim
  | comment hc hlead => exact (hno (by rw [hlead]; exact comment_mem _ _ _ _) (by simp)).elim
  | quote hc hlead => exact (hno (by rw [hlead]; exact quote_mem _ _ _ _) (by simp)).elim
  | invalid hlead => exact (hno (by rw [hlead]; exact List.mem_singleton_self _) (by simp)).elim
  | number hlead | name hlead =>
    rw [hlead] at hrest ⊢
    exact Scan.run_text hrest
  | minus hd hlead =>
    rw [hlead] at hrest ⊢
    exact Scan.run_text hrest

/-- A number and a name are read as they are, whatever token they are told to be. -/
theorem standing_of_isToken {x : Item} {w : Bytes} (h : IsToken x w)
    (hx : x.1 = .number ∨ x.1 = .name) : Standing x := by
  obtain ⟨hhead, hscan, hkind⟩ := h
  have hw : w = x.2 := by
    cases w with
    | nil =>
      have heof : x.1 = .eof := (congrArg Scan.token hscan).symm
      simp [heof] at hkind
    | cons c r =>
      have hc : isSpace c = false := hhead c rfl
      have hlead : Scan.lead c r = ⟨x.1, x.2, []⟩ := by
        rw [scan, List.dropWhile_cons_of_neg (by simp [hc])] at hscan
        exact hscan
      have htext := Scan.lead_whole (c := c) (r := r) (by rw [hlead]; exact hx) (by rw [hlead])
      rw [← htext, hlead]
  rw [Standing, ← hw]
  exact ⟨hhead, hscan, hkind⟩

/-- The numbers and names among the tokens are read as they are. -/
def Verbatim (toks : List Item) : Prop := ∀ x ∈ toks, x.1 = .number ∨ x.1 = .name → Standing x

/-- Names and numbers that stand in bytes have their own text, since the lexer drops nothing in
them. -/
theorem Layout.verbatim {toks : List Item} {b : Bytes} (h : Layout toks b) : Verbatim toks := by
  induction h with
  | nil _ => exact fun x hx => by cases hx
  | cons _ hw _ _ ih => exact List.forall_mem_cons.mpr ⟨standing_of_isToken hw, ih⟩

/-- What is asked of the names and numbers among some tokens holds of the tokens in front. -/
theorem Verbatim.left {toks toks' : List Item} (h : Verbatim (toks ++ toks')) : Verbatim toks :=
  fun x hx => h x (List.mem_append_left _ hx)

/-- It holds of the tokens behind them as well. -/
theorem Verbatim.right {toks toks' : List Item} (h : Verbatim (toks ++ toks')) : Verbatim toks' :=
  fun x hx => h x (List.mem_append_right _ hx)

/-- It holds of all tokens but the first. -/
theorem Verbatim.tail {x : Item} {toks : List Item} (h : Verbatim (x :: toks)) : Verbatim toks :=
  fun y hy => h y (List.mem_cons_of_mem _ hy)

/-- A scalar that is written as a token can be printed, if the token stands for itself where it is a
number. -/
theorem Scalar.printable_of_spelled {s : Scalar} {x : Item} (h : s.Spelled x)
    (hx : x.1 = .number ∨ x.1 = .name → Standing x) : s.Printable := by
  cases s with
  | number text =>
    cases (show x = (.number, text) from h)
    exact hx (.inl rfl)
  | _ => trivial

/-- A key that is written as tokens can be printed, under the same condition on the tokens. -/
theorem key_printable {key : Option EntryKey} {toks : List Item} (h : KeySpelled key toks)
    (hverbatim : Verbatim toks) : ∀ k ∈ key, k.scalar.Printable := by
  cases h with
  | none => simp
  | @some key k _ hkey _ =>
    intro _ hk
    cases hk
    cases hkey with
    | name => trivial
    | bracket _ hscalar _ =>
      exact Scalar.printable_of_spelled hscalar (hverbatim _ (by simp))

mutual

/-- **What was read can be printed.** A value that is written as tokens can be printed: its names
and numbers are tokens, since they were read as such. -/
theorem value_printable : ∀ {v : Value} {toks : List Item}, v.Spelled toks → Verbatim toks →
    v.Printable
  | .scalar s, _, h, hverbatim => by
    obtain ⟨x, hx, rfl⟩ := h
    exact s.printable_of_spelled hx (hverbatim x List.mem_cons_self)
  | .table es, _, h, hverbatim => by
    obtain ⟨o, c, inner, -, hinner, -, rfl⟩ := h
    exact entries_printable hinner hverbatim.tail.left

/-- The same for the entries of a table. -/
theorem entries_printable : ∀ {es : Entries} {toks : List Item}, es.Spelled toks → Verbatim toks →
    es.Printable
  | .nil, _, _, _ => trivial
  | .cons key v rest, _, h, hverbatim => by
    obtain ⟨k, t, behind, hkey, hvalue, hrest, rfl⟩ := h
    exact ⟨key_printable hkey hverbatim.left.left, value_printable hvalue hverbatim.left.right,
      behind_printable hrest hverbatim.right⟩

/-- The same for entries behind another one. -/
theorem behind_printable : ∀ {es : Entries} {toks : List Item}, es.Follow toks → Verbatim toks →
    es.Printable
  | .nil, _, _, _ => trivial
  | .cons key v rest, _, h, hverbatim => by
    obtain ⟨sep, k, t, behind, -, hkey, hvalue, hrest, rfl⟩ := h
    have hverbatim := hverbatim.tail
    exact ⟨key_printable hkey hverbatim.left.left, value_printable hvalue hverbatim.left.right,
      behind_printable hrest hverbatim.right⟩

end

/-- The same for definitions, with their names. -/
theorem definitions_printable : ∀ {ds : List (Bytes × Value)} {toks : List Item},
    DefinitionsSpelled ds toks → Verbatim toks → ∀ d ∈ ds, Standing (.name, d.1) ∧ d.2.Printable
  | [], _, _, _ => by simp
  | d :: ds, _, h, hverbatim => by
    obtain ⟨semis, eq, v, behind, -, -, hvalue, hrest, rfl⟩ := h
    have hverbatim := hverbatim.right
    exact List.forall_mem_cons.mpr ⟨⟨hverbatim _ List.mem_cons_self (.inr rfl),
      value_printable hvalue hverbatim.tail.tail.left⟩,
      definitions_printable hrest hverbatim.tail.tail.right⟩

/-- The names and the numbers of a document that is written somewhere are tokens. -/
theorem Document.WrittenAs.printable {d : Document} {b : Bytes} (h : d.WrittenAs b) :
    d.Printable := by
  obtain ⟨toks, hspelled, hlayout⟩ := h
  cases d with
  | table es => exact value_printable (v := .table es) hspelled hlayout.verbatim
  | definitions ds => exact definitions_printable hspelled hlayout.verbatim

namespace Parser

/-- **Every document has a text.** For every document and all chunks of its text, if that is of less
than 2²⁹ bytes: the calls of `ELTN_Parser_next` tell the document, with every string byte for byte,
exactly if the names and the numbers of the document are tokens. -/
theorem text_told_iff (d : Document) (chunks : List Bytes) (htext : chunks.flatten = d.text)
    (h : d.text.length < 2 ^ 29) : Tells chunks d ↔ d.Printable := by
  rw [← htext] at h
  constructor
  · exact fun htells => (writtenAs_of_tells h htells).printable
  · intro hprintable
    have hwritten := Document.text_writtenAs hprintable
    rw [← htext] at hwritten
    exact tells_of_writtenAs h hwritten

/-- The definition of `a` as a string of one quotation mark. -/
theorem text_told_iff_example :
    Tells [ascii "a = ", ascii "\"\\x22\" "]
      (.definitions [(ascii "a", .scalar (.string (ascii "\"")))]) :=
  (text_told_iff _ _ (by decide) (by decide)).mpr
    (List.forall_mem_singleton.mpr ⟨by decide +kernel, trivial⟩)

/-- **What is told can be written down and told again.** For every list of chunks of less than 2²⁹
bytes together of which `ELTN_Parser_next` tells a document, and all chunks of the text of that
document: it tells the same document of them. -/
theorem told_again (chunks chunks' : List Bytes) (d : Document)
    (h : chunks.flatten.length < 2 ^ 29) (htells : Tells chunks d)
    (htext : chunks'.flatten = d.text) (h' : d.text.length < 2 ^ 29) : Tells chunks' d := by
  have hwritten := Document.text_writtenAs (writtenAs_of_tells h htells).printable
  rw [← htext] at hwritten h'
  exact tells_of_writtenAs h' hwritten

/-- The document of `{["]"] = 'x'}` has the text `{ [ "]" ] = "x" }` and a space. -/
theorem told_again_example :
    Tells [ascii "\x7b [ \"]\" ] = \"x\" \x7d "]
      (.table (.cons (some (.string (ascii "]"))) (.scalar (.string (ascii "x"))) .nil)) :=
  told_again [ascii "\x7b[\"]\"] = ", ascii "'x'\x7d"] [ascii "\x7b [ \"]\" ] = \"x\" \x7d "] _
    (by decide) ⟨by decide +kernel, by decide +kernel⟩ (by decide) (by decide)

end Parser

end Eltn
