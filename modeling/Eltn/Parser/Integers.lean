import Eltn.Lexer.Compare
import Eltn.Lexer.Tokens
import Eltn.Parser.Block
import Eltn.Strtol

/-!
# Integers

`ELTN_Parser_integer` hands the string of the parser to `strtol`, in base 16 where the string starts
with `0x`. Behind the event of a number the string is the text of its token and a zero byte
(`after_holds`), so what it returns is a fact about `strtol` on a literal (`integer_literal`): the
prefix is not seen behind a minus sign.
-/

namespace Eltn

/-- `strncasecmp(a, b, n) == 0`. -/
def strncasecmpEq (a b : Bytes) (n : Nat) : Bool := strncmpEq (a.map tolower) (b.map tolower) n

namespace ParserState

/-- `ELTN_Parser_integer` (`eparser.c:223`): zero unless the event is a number's, else what `strtol`
makes of the string, in base 16 where it starts with `0x` or `0X`. A sign in front hides the prefix.
-/
def integer (self : ParserState) : Int :=
  let str := self.string.getD []
  if self.event.isNumber then
    let base := if strncasecmpEq str (ascii "0x") 2 then 16 else 10
    strtol base str
  else 0

/-- Behind the event of a number the block of the string starts with the text and a zero byte. -/
def Holds (self : ParserState) : Prop :=
  self.event.isNumber = true → ∃ rest, self.string = some (self.textValue ++ 0 :: rest)

end ParserState

/-! ## The string -/

/-- After any number of calls of a new parser the string of a number is a copy of its text, with a
terminator behind it. -/
theorem Parser.after_holds {τ : Type} (ts : TokenSource τ) (lexer : τ) (n : Nat) :
    ((new lexer).after ts n).Holds := by
  intro hnumber
  cases n with
  | zero => cases hnumber
  | succ n =>
    obtain ⟨q, -, heq, s, -, hsettled, hcopied⟩ := Guarded.Tracked.after_tracks ts lexer n
    rw [← heq] at hnumber ⊢
    have hcopied := hcopied hnumber
    obtain ⟨rest, hstring⟩ := hsettled.string_eq hcopied
    rw [Guarded.Setting.value_copied hcopied] at hstring
    exact ⟨rest, hstring⟩

/-! ## Literals -/

section
variable {f : Front} {sg ds r rest : Bytes}

/-- The bytes that `0` and `x` are the lower case of. -/
theorem tolower_hex (c : UInt8) : (tolower c = 0x30 ↔ c = 0x30) ∧
    (tolower c = 0x78 ↔ c = 0x78 ∨ c = 0x58) := by
  have hlen := c.toNat_lt
  simp only [tolower, UInt8.le_iff_toNat_le, ← UInt8.toNat_inj, UInt8.reduceToNat]
  split
  · rw [UInt8.toNat_add]
    simp only [UInt8.reduceToNat]
    omega
  · omega

/-- The prefix is looked for without regard to case, in the first two bytes of the string only. -/
theorem strncasecmpEq_hex (s : Bytes) : strncasecmpEq s (ascii "0x") 2 = hexPrefix s := by
  have hstr : (ascii "0x").map tolower = [0x30, 0x78] := rfl
  rw [Bool.eq_iff_iff, strncasecmpEq, hstr, strncmpEq_comm, hexPrefix_iff]
  refine (strncmpEq_front (by simp)).trans ?_
  constructor
  · rintro ⟨t, ht⟩
    rcases s with _ | ⟨a, _ | ⟨b, s⟩⟩
    · have hlen := congrArg List.length ht
      simp at hlen
    · have hlen := congrArg List.length ht
      simp at hlen
    · obtain ⟨ha, ht⟩ := List.cons.inj ht
      obtain ⟨hb, -⟩ := List.cons.inj ht
      obtain rfl := (tolower_hex a).1.mp ha.symm
      exact ⟨b, s, rfl, (tolower_hex b).2.mp hb.symm⟩
  · rintro ⟨b, s, rfl, hb⟩
    have hlower : tolower b = 0x78 := (tolower_hex b).2.mpr hb
    exact ⟨s.map tolower, by rw [List.map_cons, List.map_cons, hlower]; rfl⟩

/-- A zero byte ends digits. -/
theorem zero_stops {base : Nat} (hbase : base ≤ 16) :
    ((0 : UInt8) :: rest).head?.any (isBaseDigit base) = false := by
  simp [isBaseDigit, digitVal, hbase]

/-- The byte behind the first digit is a digit or the zero byte. Neither is an `x`, so a decimal
number is never taken for a hexadecimal one. -/
theorem hexPrefix_decimal (hsg : sg = [] ∨ sg = [0x2D]) (hne : ds ≠ [])
    (hds : ∀ c ∈ ds, isBaseDigit 10 c = true) :
    hexPrefix (sg ++ (ds ++ 0 :: rest)) = false := by
  rcases hsg with rfl | rfl
  · obtain ⟨c, ds, rfl⟩ := List.exists_cons_of_ne_nil hne
    refine hexPrefix_eq_false (fun b hb => ?_) fun b hb => ?_
    · have hdigit := isBaseDigit_imp (by omega) (hds b (List.mem_cons_of_mem c hb))
      exact (isHexdigit_lead hdigit).2.2.2
    · cases hb
      exact ⟨by simp, by simp⟩
  · cases ds <;> rfl

/-- A number in base 10. -/
theorem integer_decimal (hsg : sg = [] ∨ sg = [0x2D]) (hne : ds ≠ [])
    (hds : ∀ c ∈ ds, isBaseDigit 10 c = true) (hr : r.head?.any (isBaseDigit 10) = false)
    (hpre : hexPrefix (sg ++ (ds ++ r)) = false) :
    strtol (if hexPrefix (sg ++ (ds ++ r)) then 16 else 10) (sg ++ (ds ++ r)) =
      toLong (signedVal 10 sg ds) := by
  rw [hpre, if_neg Bool.false_ne_true]
  exact strtol_digits (by omega) hsg hne hds hr fun h => by cases h

/-- **`strtol` on a literal**, in the base that `ELTN_Parser_integer` chooses: the value of the
literal, or zero for a negative hexadecimal one, of which only the zero of its prefix is read. The
test for `0x` looks at the first two bytes, so that a sign in front of the prefix hides it
(`eparser.c:232`). -/
theorem integer_literal (hf : f.Ok) (hne : ds ≠ [])
    (hds : ∀ c ∈ ds, isBaseDigit f.base c = true) :
    strtol (if strncasecmpEq (f.text ++ ds ++ 0 :: rest) (ascii "0x") 2 then 16 else 10)
        (f.text ++ ds ++ 0 :: rest) =
      if f.sg = [0x2D] ∧ f.mark.isSome then 0 else toLong (signedVal f.base f.sg ds) := by
  obtain ⟨sg, mark⟩ := f
  obtain ⟨hsg, hmark⟩ := hf
  rw [strncasecmpEq_hex]
  cases mark with
  | none =>
    have htext : (⟨sg, none⟩ : Front).text ++ ds ++ 0 :: rest = sg ++ (ds ++ 0 :: rest) := by
      simp [Front.text]
    have hdecimal : ¬ (sg = [0x2D] ∧ (none : Option UInt8).isSome = true) := fun h => by cases h.2
    rw [htext, if_neg hdecimal]
    exact integer_decimal hsg hne hds (zero_stops (by omega)) (hexPrefix_decimal hsg hne hds)
  | some x =>
    have hx : x = 0x78 ∨ x = 0x58 := hmark x rfl
    have htext : (⟨sg, some x⟩ : Front).text ++ ds ++ 0 :: rest =
        sg ++ 0x30 :: x :: (ds ++ 0 :: rest) := by simp [Front.text]
    rw [htext]
    dsimp only at hsg ⊢
    rcases hsg with rfl | rfl
    · have hpre : hexPrefix ([] ++ 0x30 :: x :: (ds ++ 0 :: rest)) = true :=
        hexPrefix_iff.mpr ⟨x, _, rfl, hx⟩
      have hplus : ¬ (([] : Bytes) = [0x2D] ∧ (some x).isSome = true) := fun h => by cases h.1
      rw [hpre, if_pos rfl, if_neg hplus]
      exact strtol_prefix (.inl rfl) hx hne hds (zero_stops (Nat.le_refl 16))
    · -- base 10 reads the digit before the letter
      have hletter : (x :: (ds ++ 0 :: rest)).head?.any (isBaseDigit 10) = false := by
        rcases hx with rfl | rfl <;> rfl
      have hzero : ∀ c ∈ [(0x30 : UInt8)], isBaseDigit 10 c = true :=
        List.forall_mem_singleton.mpr rfl
      have hminus : ([0x2D] : Bytes) = [0x2D] ∧ (some x).isSome = true := ⟨rfl, rfl⟩
      have hread := integer_decimal (.inr rfl) (List.cons_ne_nil 0x30 []) hzero hletter rfl
      have hval : toLong (signedVal 10 [0x2D] [0x30]) = 0 := rfl
      rw [if_pos hminus, ← hval]
      exact hread

end

namespace Parser

variable {τ : Type}

/-- **When an integer is returned.** After any number of calls on any source of tokens, behind the
event of a number whose text is an integer literal with a value of 64 bits, `ELTN_Parser_integer`
returns that value iff the literal is not hexadecimal with a minus sign, or its digits are zeros.
The base is chosen by the first two bytes, in front of which the sign stands, and `strtol` ends at
the `x` in base 10. -/
theorem integer_iff (ts : TokenSource τ) (lexer : τ) (n : Nat) {f : Front} {ds : Bytes}
    (hf : f.Ok) (hne : ds ≠ []) (hds : ∀ c ∈ ds, isBaseDigit f.base c = true)
    (hlo : -2 ^ 63 ≤ signedVal f.base f.sg ds) (hhi : signedVal f.base f.sg ds < 2 ^ 63)
    (hevent : ((new lexer).after ts n).event.isNumber = true)
    (htext : ((new lexer).after ts n).textValue = f.text ++ ds) :
    ((new lexer).after ts n).integer = signedVal f.base f.sg ds ↔
      (f.sg = [0x2D] → f.mark.isSome → ∀ c ∈ ds, c = 0x30) := by
  have hholds : ((new lexer).after ts n).Holds := after_holds ts lexer n
  obtain ⟨rest, hstring⟩ := hholds hevent
  have hinteger : ((new lexer).after ts n).integer =
      if f.sg = [0x2D] ∧ f.mark.isSome then 0 else signedVal f.base f.sg ds := by
    rw [ParserState.integer, hstring, htext]
    dsimp only [Option.getD_some]
    rw [if_pos hevent, integer_literal hf hne hds, toLong_eq hlo hhi]
  rw [hinteger]
  split
  · next hneg =>
    have hval : signedVal f.base f.sg ds = -digitsVal f.base ds := if_pos hneg.1
    have hzero : digitsVal f.base ds = 0 ↔ ∀ c ∈ ds, c = 0x30 :=
      digitsVal_zero_iff f.base_pos hds
    rw [hval, ← hzero]
    constructor
    · intro h _ _
      omega
    · intro h
      have := h hneg.1 hneg.2
      omega
  · next hneg =>
    exact iff_of_true rfl fun hsg hmark => absurd ⟨hsg, hmark⟩ hneg

/-- The value `-0010`, whose zeros are not a prefix: it is read in base 10. -/
theorem integer_example :
    ((new ({ source := ascii "a = -0010" } : Lexer Bytes)).after
        (.ofLexer CharSource.ofBytes) 2).integer =
      signedVal (⟨[0x2D], none⟩ : Front).base [0x2D] (ascii "0010") := by
  have hfront : (⟨[0x2D], none⟩ : Front).Ok := ⟨.inr rfl, fun x hx => by cases hx⟩
  have hdigits : ∀ c ∈ ascii "0010", isBaseDigit (⟨[0x2D], none⟩ : Front).base c = true := by
    decide +kernel
  have htext : ((new ({ source := ascii "a = -0010" } : Lexer Bytes)).after
      (.ofLexer CharSource.ofBytes) 2).textValue =
        (⟨[0x2D], none⟩ : Front).text ++ ascii "0010" := by
    decide +kernel
  refine (integer_iff _ _ 2 hfront (List.cons_ne_nil _ _) hdigits ?_ ?_ ?_ htext).mpr ?_
  · decide +kernel
  · decide +kernel
  · decide +kernel
  · exact fun _ hmark => by cases hmark

/-- The value `-0x10`, which is -16: zero is returned for it. -/
theorem integer_hex_negative :
    ((new ({ source := ascii "a = -0x10" } : Lexer Bytes)).after
        (.ofLexer CharSource.ofBytes) 2).event = .valueNumber ∧
      ((new ({ source := ascii "a = -0x10" } : Lexer Bytes)).after
        (.ofLexer CharSource.ofBytes) 2).textValue =
          (⟨[0x2D], some 0x78⟩ : Front).text ++ ascii "10" ∧
      signedVal (⟨[0x2D], some 0x78⟩ : Front).base [0x2D] (ascii "10") = -16 ∧
      ((new ({ source := ascii "a = -0x10" } : Lexer Bytes)).after
        (.ofLexer CharSource.ofBytes) 2).integer = 0 := by
  decide +kernel

end Parser

end Eltn
