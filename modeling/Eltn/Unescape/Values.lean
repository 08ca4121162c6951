import Eltn.Convert.Text
import Eltn.Lexer.Literals
import Eltn.Strtol

/-!
# The values of string literals

Each element of a literal is one turn of the loop of the unescaper (`unescapeStep_element`), if what
follows does not belong to it: a short octal escape and `\z` read on. The bytes that a turn adds are
the documented ones, but for a `\u` escape, whose room is the number of bytes before it
(`unescape_literal`, `unescape_unicode_iff`).
-/

namespace Eltn

open Unicode

namespace Element

/-- The letters that stand for control characters, with their bytes. -/
def controls : List (UInt8 × UInt8) :=
  [(0x61, 0x07), (0x62, 0x08), (0x66, 0x0C), (0x6E, 0x0A), (0x72, 0x0D), (0x74, 0x09), (0x76, 0x0B)]

/-- The bytes that the documentation gives for an element; an octal escape above 255 stands for the
low byte of its value. -/
def documented : Element → Bytes
  | plain c => [c]
  | escape c => [(controls.lookup c).getD c]
  | hex a b => [UInt8.ofNat (digitsVal 16 [a, b])]
  | octal ds => [UInt8.ofNat (digitsVal 8 ds)]
  | unicode hs => utf8 (digitsVal 16 hs)
  | newline | crlf => [0x0A]
  | skip _ => []

/-- The elements of a string with the quote `q`, as they stand in a source: `\z` skips any white
space, and the newline behind a backslash may be CR LF. -/
def Proper (q : UInt8) : Element → Prop
  | crlf => True
  | skip ws => ∀ c ∈ ws, isSpace c = true
  | e => e.Ok q

instance (q : UInt8) : DecidablePred (Proper q)
  | skip ws => inferInstanceAs (Decidable (∀ c ∈ ws, isSpace c = true))
  | plain c => inferInstanceAs (Decidable ((plain c).Ok q))
  | escape c => inferInstanceAs (Decidable ((escape c).Ok q))
  | hex a b => inferInstanceAs (Decidable ((hex a b).Ok q))
  | octal ds => inferInstanceAs (Decidable ((octal ds).Ok q))
  | unicode hs => inferInstanceAs (Decidable ((unicode hs).Ok q))
  | newline | crlf => inferInstanceAs (Decidable True)

/-- The element ends before `r`: no byte of `r` prolongs an octal escape of less than three digits
or a `\z`. -/
def Ends (r : Bytes) : Element → Prop
  | octal ds => ds.length < 3 → r.head?.any isOctdigit = false
  | skip _ => r.head?.any isSpace = false
  | _ => True

instance (r : Bytes) : DecidablePred (Ends r)
  | octal ds => inferInstanceAs (Decidable (ds.length < 3 → r.head?.any isOctdigit = false))
  | skip _ => inferInstanceAs (Decidable (r.head?.any isSpace = false))
  | plain _ | escape _ | hex _ _ | unicode _ | newline | crlf => inferInstanceAs (Decidable True)

end Element

/-- Each element of a literal ends before the next one. -/
def Apart : List Element → Prop
  | [] => True
  | e :: es => e.Ends (literalBody es) ∧ Apart es

instance decidableApart : DecidablePred Apart
  | [] => inferInstanceAs (Decidable True)
  | e :: es =>
    have := decidableApart es
    inferInstanceAs (Decidable (e.Ends (literalBody es) ∧ Apart es))

namespace Element

/-- The bytes that the turn of the loop at an element adds to `n` bytes: those of a `\u` escape are
left to the encoder, which is told that there is room for `n`. -/
def added (n : Nat) : Element → Bytes
  | unicode hs => codepointToChar8 (toLong (digitsVal 16 hs) % 2 ^ 32).toNat n
  | e => e.documented

/-- The bytes of an element behind `n` others: the documented ones, and for a `\u` escape of no
character, which has none, those of the encoder. -/
def contribution (n : Nat) : Element → Bytes
  | unicode hs =>
    if (digitsVal 16 hs).isValidChar then (unicode hs).documented else (unicode hs).added n
  | e => e.documented

/-- A `\u` escape of a character is of an ASCII character or has more bytes before it than the UTF-8
form is long. -/
def Room (n : Nat) : Element → Prop
  | unicode hs => (digitsVal 16 hs).isValidChar →
      digitsVal 16 hs ≤ 0x7F ∨ (utf8 (digitsVal 16 hs)).length < n
  | _ => True

instance (n : Nat) : DecidablePred (Room n)
  | unicode hs => inferInstanceAs (Decidable ((digitsVal 16 hs).isValidChar →
      digitsVal 16 hs ≤ 0x7F ∨ (utf8 (digitsVal 16 hs)).length < n))
  | plain _ | escape _ | hex _ _ | octal _ | newline | crlf | skip _ =>
    inferInstanceAs (Decidable True)

section
variable {q : UInt8} {hs ds ws r out : Bytes} {e : Element}

/-! ## The helpers -/

/-- What stands behind a literal does not change the class of the byte behind an element. -/
theorem head_literal {p : UInt8 → Bool} (hq : p q = false) (hr : r.head?.any p = false) :
    (r ++ [q, 0]).head?.any p = false := by
  cases r with
  | nil => simpa using hq
  | cons c r => simpa using hr

/-- Digits up to a number of them are all taken, and no byte behind them, where they are as many or
the next byte is no digit. -/
theorem takeWhile_take_run {p : UInt8 → Bool} {n : Nat} (hds : ∀ c ∈ ds, p c = true)
    (hlen : ds.length ≤ n) (hr : ds.length < n → r.head?.any p = false) :
    ((ds ++ r).take n).takeWhile p = ds := by
  have hhead : (r.take (n - ds.length)).head?.any p = false := by
    rcases Nat.eq_or_lt_of_le hlen with heq | hlt
    · rw [heq, Nat.sub_self]
      rfl
    · obtain ⟨k, hk⟩ := Nat.exists_eq_add_of_lt hlt
      have hsub : n - ds.length = k + 1 := by omega
      rw [hsub]
      cases r with
      | nil => rfl
      | cons c r => exact hr hlt
  rw [List.take_append, List.take_of_length_le hlen, (takeWhile_run hds hhead).1]

/-- `append_octal` on up to three digits, none behind them if there are fewer: it reads them all and
adds their value as a byte. -/
theorem appendOctal_digits (he : (octal ds).Proper q)
    (hr : ds.length < 3 → r.head?.any isOctdigit = false) :
    appendOctal (ds ++ r) out = (r, out ++ (octal ds).documented) := by
  obtain ⟨hne, hlen, hds⟩ := he
  have hbase : ∀ c ∈ ds, isBaseDigit 8 c = true := by rwa [isBaseDigit_eight]
  have hlt : digitsVal 8 ds < 2 ^ 63 := calc
    digitsVal 8 ds < 8 ^ ds.length := digitsVal_lt hbase
    _ ≤ 8 ^ 3 := Nat.pow_le_pow_right (by omega) hlen
    _ ≤ 2 ^ 63 := by omega
  have htake : ((ds ++ r).take 3).takeWhile isOctdigit = ds := takeWhile_take_run hds hlen hr
  rw [appendOctal, htake]
  show ((ds ++ r).drop ds.length, _) = _
  rw [List.drop_left, strtol_byte (by omega) hne hbase hlt]
  rfl

/-- `append_hex` on two digits: it reads both and adds their value. -/
theorem appendHex_digits {a b : UInt8} (he : (hex a b).Proper q) :
    appendHex (a :: b :: r) out = (r, out ++ (hex a b).documented) := by
  obtain ⟨ha, hb⟩ := he
  have hds : ∀ c ∈ [a, b], isBaseDigit 16 c = true := by
    rw [isBaseDigit_sixteen]
    simp [ha, hb]
  have hlt : digitsVal 16 [a, b] < 2 ^ 63 :=
    (digitsVal_lt hds).trans (show 16 ^ 2 < 2 ^ 63 by omega)
  have hdigits : ¬ (!isHexdigit a || !isHexdigit b) = true := by simp [ha, hb]
  show (if (!isHexdigit a || !isHexdigit b) = true then _ else
    (r, out ++ [(strtol 16 [a, b] % 256).toNat.toUInt8])) = _
  rw [if_neg hdigits, strtol_byte (Nat.le_refl 16) (List.cons_ne_nil _ _) hds hlt]
  rfl

/-- The closing brace that `append_unicode` looks for is the one behind the digits. None of the
digits is a brace. -/
theorem strchr_brace (hhs : ∀ c ∈ hs, isHexdigit c = true) :
    strchr (hs ++ 0x7D :: r) 0x7D = some (0x7D :: r) := by
  induction hs with
  | nil => rw [List.nil_append, strchr, if_pos rfl]
  | cons c hs ih =>
    obtain ⟨hc, hhs⟩ := List.forall_mem_cons.mp hhs
    have hbrace : c ≠ 0x7D := by
      rintro rfl
      cases hc
    have hzero : c ≠ 0 := by
      rintro rfl
      cases hc
    rw [List.cons_append, strchr, if_neg hbrace, if_neg hzero]
    exact ih hhs

/-- `append_unicode` on digits in braces: it reads up to the closing brace and adds what the encoder
makes of the value, with the number of bytes so far for the room. -/
theorem appendUnicode_digits (he : (unicode hs).Proper q) :
    appendUnicode (0x7B :: (hs ++ 0x7D :: r)) out = (r, out ++ (unicode hs).added out.length) := by
  obtain ⟨hne, hhs⟩ := he
  have hds : ∀ c ∈ hs, isBaseDigit 16 c = true := by rwa [isBaseDigit_sixteen]
  have hclose : strchr (0x7B :: (hs ++ 0x7D :: r)) 0x7D = some (0x7D :: r) := by
    rw [strchr, if_neg (by simp), if_neg (by simp), strchr_brace hhs]
  have hval : strtol 16 ([] ++ (hs ++ 0x7D :: r)) = toLong (digitsVal 16 hs) :=
    strtol_digits (Nat.le_refl 16) (.inl rfl) hne hds rfl fun _ => ⟨by simp, by simp⟩
  rw [List.nil_append] at hval
  rw [appendUnicode, hclose]
  simp only [List.headD_cons, List.tail_cons, ne_eq, not_true_eq_false, if_false, hval]
  rfl

/-! ## One turn -/

/-- The turn of the loop at a backslash. -/
theorem unescapeStep_backslash (s out : Bytes) :
    unescapeStep (0x5C :: s) out = unescapeSwitch s out := rfl

/-- Any other byte is copied. -/
theorem unescapeStep_plain {c : UInt8} (hc : c ≠ 0x5C) :
    unescapeStep (c :: r) out = (r, out ++ [c]) := if_pos hc

/-- An escape of one letter adds the byte that the letter stands for, and an escaped quote or
backslash adds itself. -/
theorem unescapeSwitch_escape {c : UInt8} (he : c ∈ ascii "abfnrtv\\\"'") :
    unescapeSwitch (c :: r) out = (r, out ++ (escape c).documented) := by
  have hcases : c ∈ [0x61, 0x62, 0x66, 0x6E, 0x72, 0x74, 0x76, 0x5C, 0x22, 0x27] := he
  simp only [List.mem_cons, List.not_mem_nil, or_false] at hcases
  rw [unescapeSwitch_cons]
  rcases hcases with rfl | rfl | rfl | rfl | rfl | rfl | rfl | rfl | rfl | rfl <;> rfl

/-- A digit behind the backslash starts an octal escape and is its first digit. -/
theorem unescapeSwitch_octal {d : UInt8} (hd : isOctdigit d = true) :
    unescapeSwitch (d :: r) out = appendOctal (d :: r) out := by
  have hnot : ∀ c : UInt8, isOctdigit c = false → d ≠ c := by
    rintro c hc rfl
    rw [hd] at hc
    cases hc
  have hletter : letterEscape d = none := by
    simp only [letterEscape, if_neg (hnot 0x61 rfl), if_neg (hnot 0x62 rfl), if_neg (hnot 0x66 rfl),
      if_neg (hnot 0x6E rfl), if_neg (hnot 0x72 rfl), if_neg (hnot 0x74 rfl),
      if_neg (hnot 0x76 rfl)]
  rw [unescapeSwitch_cons, if_neg (hnot 0x0A rfl), if_neg (hnot 0x0D rfl), hletter]
  dsimp only
  rw [if_neg (hnot 0x78 rfl), if_neg (hnot 0x75 rfl), if_neg (hnot 0x7A rfl), if_pos hd]

/-- The letter of a `\u` escape is read before `append_unicode` is called. -/
theorem unescapeSwitch_u (s out : Bytes) : unescapeSwitch (0x75 :: s) out = appendUnicode s out :=
  rfl

/-- `\z` skips the whitespace behind it and adds nothing. -/
theorem unescapeSwitch_z (s out : Bytes) :
    unescapeSwitch (0x7A :: s) out = (s.dropWhile isSpace, out) := rfl

/-- **One turn of the loop** reads one element that ends where the rest of the literal begins, and
adds its bytes. -/
theorem unescapeStep_element (hq : q = 0x27 ∨ q = 0x22) (he : e.Proper q) (hend : e.Ends r) :
    unescapeStep (e.bytes ++ (r ++ [q, 0])) out = (r ++ [q, 0], out ++ e.added out.length) := by
  have hoct : isOctdigit q = false := by rcases hq with rfl | rfl <;> rfl
  have hspace : isSpace q = false := by rcases hq with rfl | rfl <;> rfl
  cases e with
  | plain c => exact unescapeStep_plain he.2.1
  | escape c => exact unescapeSwitch_escape he
  | hex a b => exact appendHex_digits he
  | octal ds =>
    have hr : ds.length < 3 → (r ++ [q, 0]).head?.any isOctdigit = false :=
      fun hlen => head_literal hoct (hend hlen)
    have hread : appendOctal (ds ++ (r ++ [q, 0])) out = _ := appendOctal_digits he hr
    obtain ⟨hne, -, hds⟩ := he
    obtain ⟨d, ds, rfl⟩ := List.exists_cons_of_ne_nil hne
    have hturn : unescapeSwitch (d :: (ds ++ (r ++ [q, 0]))) out = _ :=
      unescapeSwitch_octal (hds d List.mem_cons_self)
    exact hturn.trans hread
  | unicode hs =>
    have hbytes : (unicode hs).bytes ++ (r ++ [q, 0]) =
        0x5C :: 0x75 :: 0x7B :: (hs ++ 0x7D :: (r ++ [q, 0])) := by simp [bytes]
    rw [hbytes, unescapeStep_backslash, unescapeSwitch_u, appendUnicode_digits he]
  | newline => rfl
  -- the byte behind the carriage return is taken with it
  | crlf => rfl
  | skip ws =>
    have hbytes : (skip ws).bytes ++ (r ++ [q, 0]) = 0x5C :: 0x7A :: (ws ++ (r ++ [q, 0])) := rfl
    have hdrop : (ws ++ (r ++ [q, 0])).dropWhile isSpace = r ++ [q, 0] :=
      (takeWhile_run he (head_literal hspace hend)).2
    rw [hbytes, unescapeStep_backslash, unescapeSwitch_z, hdrop]
    exact congrArg (Prod.mk _) (List.append_nil out).symm

/-! ## What an element adds -/

/-- Only a `\u` escape adds bytes that depend on those before it. -/
theorem added_eq (he : ∀ hs, e ≠ unicode hs) (n : Nat) : e.added n = e.documented := by
  cases e with
  | unicode hs => exact absurd rfl (he hs)
  | plain | escape | hex | octal | newline | crlf | skip => rfl

/-- The code point of an escape of a character. -/
theorem added_char {n : Nat} (hv : (digitsVal 16 hs).isValidChar) :
    (unicode hs).added n = codepointToChar8 (digitsVal 16 hs) n := by
  have hlt : digitsVal 16 hs < 0x110000 := by
    rcases hv with hv | hv
    · omega
    · exact hv.2
  have hlong : toLong (digitsVal 16 hs) = digitsVal 16 hs := toLong_eq (by omega) (by omega)
  have hmod : ((digitsVal 16 hs : Int) % 2 ^ 32).toNat = digitsVal 16 hs := by omega
  rw [added, hlong, hmod]

/-- Where there is room the documented bytes are added. Such room is what the bytes added before
give it. -/
theorem added_room {n : Nat} (h : e.Room n) : e.added n = e.contribution n := by
  cases e with
  | unicode hs =>
    rw [contribution]
    split
    · next hv =>
      rw [added_char hv]
      rcases h hv with h7F | hroom
      · exact writeUtf8_ascii h7F
      · refine writeUtf8_room ?_ (by rwa [Nat.zero_add])
        rcases hv with hv | hv <;> omega
    · rfl
  | plain | escape | hex | octal | newline | crlf | skip => rfl

/-- Where there is none nothing is added, although something should be. -/
theorem added_full {n : Nat} (h : ¬ e.Room n) :
    e.added n = [] ∧ e.contribution n ≠ [] := by
  cases e with
  | unicode hs =>
    obtain ⟨hv, h⟩ := Classical.not_imp.mp h
    obtain ⟨h7F, hroom⟩ := not_or.mp h
    have hlt : digitsVal 16 hs < 2 ^ 21 := by rcases hv with hv | hv <;> omega
    rw [added_char hv, contribution, if_pos hv]
    exact ⟨writeUtf8_full hlt (Nat.not_le.mp h7F) (by rwa [Nat.zero_add]), utf8_ne_nil _⟩
  | plain | escape | hex | octal | newline | crlf | skip => exact absurd trivial h

/-- More bytes before an element make no fewer of its own, since they are all the room that a `\u`
escape is given. -/
theorem added_length_le {n n' : Nat} (h : n ≤ n') :
    (e.added n).length ≤ (e.contribution n').length := by
  cases e with
  | unicode hs =>
    have hmono : (unicode hs).added n = (unicode hs).added n' ∨ (unicode hs).added n = [] :=
      writeUtf8_mono h
    have hfull : ((unicode hs).added n').length ≤ ((unicode hs).contribution n').length := by
      by_cases hroom : (unicode hs).Room n'
      · exact Nat.le_of_eq (congrArg List.length (added_room hroom))
      · rw [(added_full hroom).1]
        exact Nat.zero_le _
    rcases hmono with heq | hnil
    · rwa [heq]
    · rw [hnil]
      exact Nat.zero_le _
  | plain | escape | hex | octal | newline | crlf | skip => exact Nat.le_refl _

end

end Element

/-! ## The loop -/

/-- The bytes behind `out` when each element gives the bytes `f`, by the number of those before. -/
def assembled (f : Nat → Element → Bytes) (out : Bytes) : List Element → Bytes
  | [] => out
  | e :: es => assembled f (out ++ f out.length e) es

/-- The bytes of a literal, place by place. -/
def decoded (es : List Element) : Bytes := assembled Element.contribution [] es

/-- There is room for each element behind the bytes `out` and those before it. -/
def Roomy (out : Bytes) : List Element → Prop
  | [] => True
  | e :: es => e.Room out.length ∧ Roomy (out ++ e.contribution out.length) es

instance decidableRoomy (out : Bytes) : DecidablePred (Roomy out)
  | [] => inferInstanceAs (Decidable True)
  | e :: es =>
    have := decidableRoomy (out ++ e.contribution out.length) es
    inferInstanceAs
      (Decidable (e.Room out.length ∧ Roomy (out ++ e.contribution out.length) es))

section
variable {q : UInt8} {fuel : Nat} {out out' : Bytes} {e : Element} {es : List Element}
  {f : Nat → Element → Bytes}

/-- Where what an element gives does not depend on the place, the bytes of a literal are those of
its elements one behind the other. -/
theorem assembled_flatMap {g : Element → Bytes} (h : ∀ e ∈ es, ∀ n, f n e = g e) :
    assembled f out es = out ++ es.flatMap g := by
  induction es generalizing out with
  | nil => exact (List.append_nil out).symm
  | cons e es ih =>
    obtain ⟨he, hes⟩ := List.forall_mem_cons.mp h
    rw [assembled, he, ih hes, List.flatMap_cons, List.append_assoc]

/-- Bytes that are missing are never made up for. Less room in front of an element only makes it
shorter. -/
theorem assembled_length_le {k : Nat} (h : out.length + k ≤ out'.length) :
    (assembled Element.added out es).length + k ≤
      (assembled Element.contribution out' es).length := by
  induction es generalizing out out' with
  | nil => exact h
  | cons e es ih =>
    have he : (e.added out.length).length ≤ (e.contribution out'.length).length :=
      Element.added_length_le (Nat.le_of_add_right_le h)
    refine ih ?_
    rw [List.length_append, List.length_append]
    omega

/-- The documented bytes come out iff there is room for each element, in front of which there must
be as many bytes already. -/
theorem assembled_eq_iff :
    assembled Element.added out es = assembled Element.contribution out es ↔ Roomy out es := by
  induction es generalizing out with
  | nil => exact iff_of_true rfl trivial
  | cons e es ih =>
    by_cases hroom : e.Room out.length
    · rw [assembled, assembled, Element.added_room hroom, ih]
      exact (and_iff_right hroom).symm
    · obtain ⟨hnil, hne⟩ := Element.added_full hroom
      refine iff_of_false (fun heq => ?_) (fun h => hroom h.1)
      rw [assembled, assembled, hnil, List.append_nil] at heq
      have hlen : out.length + 1 ≤ (out ++ e.contribution out.length).length := by
        rw [List.length_append]
        exact Nat.add_le_add_left (List.length_pos_iff.mpr hne) _
      have hle : (assembled Element.added out es).length + 1 ≤ _ := assembled_length_le hlen
      rw [heq] at hle
      exact absurd hle (Nat.not_succ_le_self _)

/-- No element starts with the quote, so the loop does not stop in front of it. -/
theorem bytes_head (hq : q = 0x27 ∨ q = 0x22) (he : e.Proper q) :
    ∃ c s, e.bytes = c :: s ∧ c ≠ q := by
  have hback : 0x5C ≠ q := (quote_ne_backslash hq).symm
  cases e with
  | plain c => exact ⟨c, [], rfl, he.1⟩
  | escape | hex | octal | unicode | newline | crlf | skip => exact ⟨0x5C, _, rfl, hback⟩

/-- The loop, from an element on, reads the elements one after the other up to the quote. By
induction on the elements. -/
theorem unescapeLoop_elements (hq : q = 0x27 ∨ q = 0x22) (hes : ∀ e ∈ es, e.Proper q)
    (hapart : Apart es) (hfuel : es.length ≤ fuel) :
    unescapeLoop q fuel (literalBody es ++ [q, 0]) out =
      ([q, 0], assembled Element.added out es) := by
  induction es generalizing fuel out with
  | nil =>
    cases fuel with
    | zero => rfl
    | succ fuel => exact if_neg fun h => h.2 rfl
  | cons e es ih =>
    obtain ⟨he, hes⟩ := List.forall_mem_cons.mp hes
    obtain ⟨hend, hapart⟩ := hapart
    obtain ⟨fuel, rfl⟩ := Nat.exists_eq_succ_of_ne_zero (Nat.ne_of_gt (Nat.zero_lt_of_lt hfuel))
    have hbody : literalBody (e :: es) ++ [q, 0] = e.bytes ++ (literalBody es ++ [q, 0]) := by
      simp [literalBody]
    have hgo : 1 < (e.bytes ++ (literalBody es ++ [q, 0])).length ∧
        (e.bytes ++ (literalBody es ++ [q, 0])).headD 0 ≠ q := by
      obtain ⟨c, s, hs, hc⟩ := bytes_head hq he
      rw [hs]
      exact ⟨by simp, hc⟩
    rw [hbody, unescapeLoop, if_pos hgo, Element.unescapeStep_element hq he hend]
    exact ih hes hapart (Nat.le_of_succ_le_succ hfuel)

/-- Every element has a byte, so the length of the literal is enough fuel for its elements. -/
theorem length_le_literalBody (es : List Element) : es.length ≤ (literalBody es).length := by
  induction es with
  | nil => exact Nat.le_refl 0
  | cons e es ih =>
    have he : 1 ≤ e.bytes.length := by
      cases e with
      | plain | escape | hex | octal | unicode | newline | crlf | skip => exact Nat.le_add_left 1 _
    have hbody : (literalBody (e :: es)).length = e.bytes.length + (literalBody es).length := by
      simp [literalBody]
    rw [hbody, List.length_cons]
    omega

/-- The unescaper on a whole literal reads its elements one after the other, and stops at the quote
that ends it. -/
theorem unescapeQuotedString_elements (hq : q = 0x27 ∨ q = 0x22) (hes : ∀ e ∈ es, e.Proper q)
    (hapart : Apart es) :
    unescapeQuotedString (q :: (literalBody es ++ [q])) =
      ([q, 0], assembled Element.added [] es) := by
  have hfuel : es.length ≤ (q :: (literalBody es ++ [q])).length := by
    have := length_le_literalBody es
    simp only [List.length_cons, List.length_append, List.length_nil]
    omega
  have hpointer : (q :: (literalBody es ++ [q]) ++ [0]).tail = literalBody es ++ [q, 0] := by simp
  have hopen : (q :: (literalBody es ++ [q])).headD 0 = 0x27 ∨
      (q :: (literalBody es ++ [q])).headD 0 = 0x22 := hq
  rw [unescapeQuotedString, if_pos hopen, hpointer]
  exact unescapeLoop_elements hq hes hapart hfuel

/-- **The documented value of a literal without `\u` escapes** is what the unescaper returns,
whatever elements it has and in whatever order. A newline is one of its elements, as `\n`, as CR LF
or alone. -/
theorem unescape_literal (hq : q = 0x27 ∨ q = 0x22) (hes : ∀ e ∈ es, e.Proper q)
    (hunicode : ∀ hs, .unicode hs ∉ es) (hapart : Apart es) :
    (unescapeQuotedString (q :: (literalBody es ++ [q]))).2 = es.flatMap Element.documented := by
  have hadded : ∀ e ∈ es, ∀ n, e.added n = e.documented :=
    fun e he => Element.added_eq fun hs heq => hunicode hs (heq ▸ he)
  rw [unescapeQuotedString_elements hq hes hapart, assembled_flatMap hadded, List.nil_append]

/-- The literal `'\0a\'\z`, a newline, `\x41\`, a newline of two bytes, `'`. -/
theorem unescape_literal_example :
    (unescapeQuotedString (0x27 :: (literalBody [.octal [0x30], .plain 0x61, .escape 0x27,
      .skip [0x0A, 0x0C], .hex 0x34 0x31, .crlf] ++ [0x27]))).2 =
        [0x00, 0x61, 0x27, 0x41, 0x0A] :=
  unescape_literal (.inl rfl) (by decide +kernel) (by simp) (by decide +kernel)

/-- **Where `\u` escapes yield their UTF-8 bytes.** A literal is decoded place by place iff each
`\u` escape of a character above `0x7F` has more bytes before it than its UTF-8 form is long. The
encoder is told that it has as much room as bytes were stored before (`estring.c:80`), and it asks
for one byte more than it needs. -/
theorem unescape_unicode_iff (hq : q = 0x27 ∨ q = 0x22) (hes : ∀ e ∈ es, e.Proper q)
    (hapart : Apart es) :
    (unescapeQuotedString (q :: (literalBody es ++ [q]))).2 = decoded es ↔ Roomy [] es := by
  rw [unescapeQuotedString_elements hq hes hapart]
  exact assembled_eq_iff

/-- Where all `\u` escapes are of characters, decoding is place by place without regard to what
stands before. -/
theorem decoded_documented (h : ∀ hs, .unicode hs ∈ es → (digitsVal 16 hs).isValidChar) :
    decoded es = es.flatMap Element.documented := by
  have hcontribution : ∀ e ∈ es, ∀ n, e.contribution n = e.documented := by
    intro e he n
    cases e with
    | unicode hs => exact if_pos (h hs he)
    | plain | escape | hex | octal | newline | crlf | skip => rfl
  rw [decoded, assembled_flatMap hcontribution, List.nil_append]

/-- The four lengths of UTF-8 forms behind 22 bytes. -/
theorem unescape_unicode_example :
    (unescapeQuotedString (0x27 :: (literalBody ((ascii "this text has unicode:").map .plain ++
      [.unicode (ascii "a"), .unicode (ascii "A9"), .unicode (ascii "1e9e"),
        .unicode (ascii "1047F")]) ++ [0x27]))).2 =
      decoded ((ascii "this text has unicode:").map .plain ++
        [.unicode (ascii "a"), .unicode (ascii "A9"), .unicode (ascii "1e9e"),
          .unicode (ascii "1047F")]) :=
  (unescape_unicode_iff (.inl rfl) (by decide +kernel) (by decide +kernel)).mpr (by decide +kernel)

/-- The literal `"\u{A9}"`, whose two bytes are dropped. -/
theorem unescape_unicode_fails :
    (∀ e ∈ [Element.unicode (ascii "A9")], e.Proper 0x22) ∧
      Apart [.unicode (ascii "A9")] ∧ (digitsVal 16 (ascii "A9")).isValidChar ∧
      (unescapeQuotedString
        (0x22 :: (literalBody [.unicode (ascii "A9")] ++ [0x22]))).2 = [] ∧
      decoded [.unicode (ascii "A9")] = [0xC2, 0xA9] := by
  decide +kernel

end

end Eltn
