import Eltn.Document
import Eltn.Lexer.Quoted
import Eltn.Parser.Chunks
import Eltn.Parser.Order
import Eltn.Parser.Run

/-!
# The strings of the events

`set_event` makes a string of the token that the call read last: it unescapes a quoted one and
copies the text of any other. In what the lexer reads a text alone tells whether it is quoted, so
the string of an event is a function of its text (`values_eq`).
-/

namespace Eltn

open ParserState

/-- The string that `set_event` makes of a token with a text. -/
def stringFor (token : Token) (text : Bytes) : Bytes :=
  if token = .string then (unescapeQuotedString text).2 else text

/-- The string of a token. -/
def Lexeme.string (x : Lexeme) : Bytes := stringFor x.token x.text

/-- A byte that quotes. -/
def IsQuote (c : UInt8) : Prop := c = 0x27 ∨ c = 0x22

instance (c : UInt8) : Decidable (IsQuote c) := inferInstanceAs (Decidable (c = 0x27 ∨ c = 0x22))

/-- The string that goes with a text. -/
def stringOf (text : Bytes) : Bytes :=
  if ∃ c ∈ text.head?, IsQuote c then (unescapeQuotedString text).2 else text

namespace ParserState

variable (self : ParserState)

/-- `set_string_copy` leaves the text for the string. -/
theorem setStringCopy_stringValue (text : Bytes) :
    (self.setStringCopy text).stringValue = text := by
  rw [setStringCopy, stringValue]
  exact List.take_left

/-- `set_event` keeps the text of the token. -/
theorem setEvent_textValue (token : Token) (e : Event) (text : Bytes) :
    (self.setEvent token e text).textValue = text := by
  rw [textValue, setEvent_text, Option.getD_some]

/-- `set_event` makes the string of the token of its text, by the kind of the token. -/
theorem setEvent_stringValue (x : Lexeme) (e : Event) :
    (self.setEvent x.token e x.text).stringValue = x.string := by
  rw [Lexeme.string, stringFor]
  cases htoken : x.token with
  | string =>
    rw [if_pos rfl]
    exact List.take_left
  | longString | comment | longComment => exact List.take_left
  | _ => exact setStringCopy_stringValue _ _

end ParserState

/-! ## Texts -/

namespace Scan

variable {c : UInt8} {r : Bytes}

/-- A token starts with its first byte. -/
theorem lead_text (c : UInt8) (r : Bytes) : ∃ text, (lead c r).text = c :: text := by
  obtain ⟨-, span, gap, -, htext, -⟩ := lead_cuts c r
  exact ⟨_, htext⟩

/-- A quote starts a quoted token or an invalid one. -/
theorem lead_quote (hc : IsQuote c) (r : Bytes) :
    (lead c r).token = .string ∨ (lead c r).token = .invalid := by
  have hlead : lead c r = quote c c [c] r := by
    rcases hc with rfl | rfl <;> rfl
  rw [hlead]
  simpa using quote_mem c c [c] r

/-- The lexer takes no number for an integer, so that all numbers are reported as such. By the cases
of the first byte, with the kinds that each loop can give. -/
theorem lead_ne_integer (c : UInt8) (r : Bytes) : (lead c r).token ≠ .integer := by
  cases lead_cases c r with
  | squareOpen hr hlead => rw [hlead r hr]; exact fun h => by cases h
  | longString hd hlead =>
    rw [hlead]
    exact ne_of_mem_of_not_mem (longString_mem _ _ _ _) (by simp)
  | punctuation hp hlead =>
    rw [hlead]
    exact ne_of_mem_of_not_mem (punctuation_mem hp).1 (by simp)
  | number hlead | minus hd hlead =>
    rw [hlead]
    exact ne_of_mem_of_not_mem (numberToken_mem _) (by simp)
  | comment hc hlead =>
    rw [hlead]
    exact ne_of_mem_of_not_mem (comment_mem _ _ _ _) (by simp)
  | quote hc hlead =>
    rw [hlead]
    exact ne_of_mem_of_not_mem (quote_mem _ _ _ _) (by simp)
  | name hlead =>
    rw [hlead]
    exact ne_of_mem_of_not_mem (nameToken_mem _) (by simp)
  | invalid hlead => rw [hlead]; exact fun h => by cases h

end Scan

/-- A token as the lexer reads them: no integer, and with a text that tells its string. -/
structure Lexeme.Read (x : Lexeme) : Prop where
  ne_integer : x.token ≠ .integer
  string_eq : x.token ≠ .invalid → x.string = stringOf x.text

namespace Scan

/-- A token that was scanned is one that the lexer gives: it is no integer, and if it is valid its
string can be told from its text alone. -/
theorem lexeme_read (src r : Bytes) : (lexeme src r).Read := by
  have htext : (lexeme src r).text = (scan r).text := rfl
  have htoken : (lexeme src r).token = (scan r).token := rfl
  rw [scan] at htext htoken
  generalize r.dropWhile isSpace = s at htext htoken
  cases s with
  | nil =>
    refine ⟨by rw [htoken]; simp, fun _ => ?_⟩
    rw [Lexeme.string, stringFor, htoken, htext]
    rfl
  | cons c s =>
    refine ⟨htoken ▸ lead_ne_integer c s, fun hvalid => ?_⟩
    rw [htoken] at hvalid
    obtain ⟨text, hhead⟩ := lead_text c s
    rw [Lexeme.string, stringFor, stringOf, htoken, htext, hhead, List.head?_cons]
    refine if_congr ⟨fun hstring => ⟨c, rfl, (lead_string hstring).1⟩, ?_⟩ rfl rfl
    rintro ⟨_, hmem, hquote⟩
    cases hmem
    exact (lead_quote hquote s).resolve_right hvalid

/-- So is the end of the input. -/
theorem final_read (src : Bytes) : (final src).Read where
  ne_integer h := by cases h
  string_eq _ := rfl

/-- So are all tokens of the list that is scanned. -/
theorem lexemesUpTo_read (src : Bytes) (n : Nat) : ∀ r : Bytes,
    ∀ x ∈ lexemesUpTo src n r, x.Read := by
  induction n with
  | zero => exact fun r x hx => by cases hx
  | succ n ih =>
    intro r x hx
    rw [lexemesUpTo] at hx
    split at hx
    · cases hx
    · rcases List.mem_cons.mp hx with rfl | hx
      · exact lexeme_read src r
      · exact ih _ x hx

end Scan

/-! ## Calls -/

namespace Parser

section
variable {τ : Type} {ts : TokenSource τ} {P : Lexeme → Prop} {a : Progress} {p : Parser τ}

/-- The tokens of a source are all of a kind `P`, and the event that is set, if any, is an error or
has the text and the string of a valid token of the kind. -/
structure Sourced (ts : TokenSource τ) (P : Lexeme → Prop) (a : Progress) (p : Parser τ) :
    Prop where
  ok : ts.Ok p.lexer
  lexemes : ∀ x ∈ ts.lexemes p.lexer, P x
  final : P (ts.final p.lexer)
  last : ∀ t ∈ a.token, ∃ x, P x ∧ x.token = t ∧ p.tokenText ts = x.text
  event : p.event = .streamStart ∨ p.event = .error ∨
    ∃ x, P x ∧ x.token ≠ .invalid ∧ p.textValue = x.text ∧ p.stringValue = x.string

/-- Where the string came from has nothing to do with the depth. -/
theorem Sourced.setDepth (h : Sourced ts P a p) (n : Nat) :
    Sourced ts P a { p with depth := n } :=
  ⟨h.ok, h.lexemes, h.final, h.last, h.event⟩

/-- One operation keeps where the string comes from: the last token read, from the moment its event
is set. By cases on the operation: a token read is the first of those left, an event is set for the
last token read, and the other operations leave the string alone. -/
theorem Sourced.handler {o : Operation} {r : o.Reply} {t : Parser τ} (h : Sourced ts P a p)
    (hallows : Code.order.Allows a o) (hcall : Parser.handler ts o p = some (r, t)) :
    Sourced ts P (Code.order.next a o r) t := by
  cases o with
  | lexerNextToken =>
    cases hcall
    refine ⟨ts.ok_nextToken h.ok, fun x hx => ?_, ?_, fun t ht => ?_, h.event⟩
    · rw [ts.lexemes_nextToken h.ok] at hx
      exact h.lexemes x (List.mem_of_mem_tail hx)
    · rw [ts.final_nextToken h.ok]
      exact h.final
    · obtain rfl : (ts.nextToken p.lexer).1.1 = t := Option.some.inj ht
      refine ⟨(ts.lexemes p.lexer).headD (ts.final p.lexer), ?_, ?_, ?_⟩
      · cases hlexemes : ts.lexemes p.lexer with
        | nil => exact h.final
        | cons x xs => exact h.lexemes x (hlexemes ▸ List.mem_cons_self)
      · rw [ts.nextToken_fst h.ok]
        rfl
      · exact ts.tokenString_nextToken h.ok
  | setEvent token e =>
    obtain ⟨rfl, hvalid⟩ := hallows
    cases hcall
    obtain ⟨x, hx, rfl, htext⟩ := h.last token rfl
    refine ⟨h.ok, h.lexemes, h.final, h.last, .inr (.inr ⟨x, hx, hvalid, ?_, ?_⟩)⟩
    · exact (setEvent_textValue _ _ _ _).trans htext
    · rw [setEvent, update, htext]
      exact setEvent_stringValue _ x e
  | signalError token line column =>
    cases hcall
    refine ⟨h.ok, h.lexemes, h.final, h.last, .inr (.inl ?_)⟩
    obtain ⟨_, _, _, hframe⟩ := p.toParserState.signalError_frame token (p.tokenText ts) line column
    rw [signalError, update, hframe]
  | deeper =>
    rw [Parser.handler, update, ParserState.push] at hcall
    generalize ParserState.deeper p.depth = n at hcall
    cases hcall
    exact h.setDepth n
  | shallower =>
    rw [Parser.handler, update, ParserState.pop] at hcall
    generalize ParserState.shallower p.depth = n at hcall
    cases hcall
    exact h.setDepth n
  | _ =>
    cases hcall
    exact ⟨h.ok, h.lexemes, h.final, h.last, h.event⟩

/-- One call. -/
theorem Sourced.next (h : Sourced ts P ⟨none, false⟩ p) :
    Sourced ts P ⟨none, false⟩ (p.next ts) := by
  obtain ⟨b, -, hb⟩ := Program.run_obeys
    (fun a o s r t hs hallows hcall => hs.handler hallows hcall) (Code.next_obeys _) h
    (run_next (enough_of_ok h.ok))
  exact ⟨hb.ok, hb.lexemes, hb.final, (fun t ht => by cases ht), hb.event⟩

/-- A new parser has read nothing and made no string. -/
theorem sourced_new {s : τ} (hok : ts.Ok s) (hlexemes : ∀ x ∈ ts.lexemes s, P x)
    (hfinal : P (ts.final s)) : Sourced ts P ⟨none, false⟩ (new s) :=
  ⟨hok, hlexemes, hfinal, (fun t ht => by cases ht), .inl rfl⟩

end

/-- What up to `n` calls of `ELTN_Parser_next` tell of the document, while `ELTN_Parser_has_next` is
true. -/
def values {τ : Type} (ts : TokenSource τ) : Nat → Parser τ → List Report
  | 0, _ => []
  | n + 1, p =>
    if p.hasNext then (p.next ts).event.report (p.next ts).stringValue :: values ts n (p.next ts)
    else []

/-- What a listing tells of the document. -/
def told (l : Listing) : List Report := l.map fun y => y.1.report (stringOf y.2)

/-- **The strings follow from the texts**, up to an error: each is what `told` makes of the event
and the text reported with it. -/
theorem values_eq {τ : Type} {ts : TokenSource τ} (n : Nat) : ∀ {p : Parser τ},
    Sourced ts Lexeme.Read ⟨none, false⟩ p →
    (∀ y ∈ p.reports ts n, y.1 ≠ .streamStart ∧ y.1 ≠ .error) →
    p.values ts n = told (p.reports ts n) := by
  induction n with
  | zero => exact fun _ _ => rfl
  | succ n ih =>
    intro p h hevents
    rw [values, reports] at *
    split
    · next hnext =>
      rw [if_pos hnext] at hevents
      obtain ⟨⟨hstart, herror⟩, hrest⟩ := List.forall_mem_cons.mp hevents
      obtain ⟨x, hx, hvalid, htext, hstring⟩ := (h.next.event.resolve_left hstart).resolve_left
        herror
      rw [ih h.next hrest, hstring, hx.string_eq hvalid, ← htext]
      rfl
    · rfl

end Parser

end Eltn
