import Eltn.KeySet.Values
import Eltn.Lexer.Values
import Eltn.Rounding

/-!
# The memory behind a key

`init_key` copies the bytes of a key into a block of their length, without a terminator, and
`strtod` reads on into whatever is behind it. A number goes on with the digits it finds there
(`strtod_exponent`), and an exponent among them makes any value of it; `ownValue_iff` says which
numbers keep their value nevertheless, and that all do where the next byte cannot go on.
-/

namespace Eltn

namespace KeySet

/-- The number of the key is the value of its own bytes, whatever is behind its block, and so are
the answers for it. -/
structure OwnValue (str : Bytes) : Prop where
  num : ∀ after p, initKey true .number str after = some p → p.num = (strtod str).1
  has : ∀ (s : KeySet) alloc after after',
    s.hasKey alloc .number str after = s.hasKey alloc .number str after'
  add : ∀ (s : KeySet) (heap : Heap) probeAfter keyAfter,
    s.addKey { heap with probeAfter := probeAfter, keyAfter := keyAfter } .number str =
      s.addKey heap .number str

/-- A number that no digits behind it change: it has an exponent, and its mantissa is zero, or the
exponent is negative and the value is rounded to zero, or it is not and the value is beyond the
doubles. -/
inductive Settled : Bytes → Prop
  | intro {f : Front} {m es ds : Bytes} {c : UInt8} : f.Ok → Mantissa (isBaseDigit f.base) m →
      c = f.lower ∨ c = f.upper → es = [] ∨ es = [0x2B] ∨ es = [0x2D] → ds ≠ [] →
      (∀ c ∈ ds, isDigit c = true) →
      (∀ c ∈ m, c = 0x30 ∨ c = 0x2E) ∨
        es = [0x2D] ∧ (strtod (f.text ++ (m ++ c :: (es ++ ds)))).1.isZero = true ∨
        es ≠ [0x2D] ∧ (strtod (f.text ++ (m ++ c :: (es ++ ds)))).1.isInf = true →
      Settled (f.text ++ (m ++ c :: (es ++ ds)))

section
variable {f : Front} {m es ds str after : Bytes} {c : UInt8} {n p : Nat}

/-! ## Reading on -/

/-- The letter of an exponent ends the mantissa: it is no digit of the base, no point and no `x`. -/
theorem letter_stops (hc : c = f.lower ∨ c = f.upper) (r : Bytes) :
    Stops f.base (c :: r) ∧ ∀ d ∈ (c :: r).head?, d ≠ 0x78 ∧ d ≠ 0x58 := by
  obtain ⟨sg, mark⟩ := f
  cases mark with
  | none =>
    have hletter : c = 0x65 ∨ c = 0x45 := hc
    rcases hletter with rfl | rfl <;>
      exact ⟨⟨rfl, fun h => by cases h⟩, by rintro d ⟨⟩; decide⟩
  | some x =>
    have hletter : c = 0x70 ∨ c = 0x50 := hc
    rcases hletter with rfl | rfl <;>
      exact ⟨⟨rfl, fun h => by cases h⟩, by rintro d ⟨⟩; decide⟩

/-- A number with an exponent goes on with the digits behind it, as if they were digits of the
exponent, and its mantissa is the same. -/
theorem strtod_exponent (h : f.Ok) (hm : Mantissa (isBaseDigit f.base) m)
    (hc : c = f.lower ∨ c = f.upper) (hes : es = [] ∨ es = [0x2B] ∨ es = [0x2D]) (hne : ds ≠ [])
    (hds : ∀ c ∈ ds, isDigit c = true) (hmant : mantissaPart f.base m = some (n, p, m.length))
    (r : Bytes) :
    (strtod (f.text ++ (m ++ c :: (es ++ (ds ++ r))))).1 = .ofScaled (f.sg = [0x2D]) n f.scale
      ((if es = [0x2D] then -1 else 1) * (digitsVal 10 (ds ++ r.takeWhile isDigit) : Int) -
        f.shift * p) := by
  obtain ⟨hstops, hx⟩ := letter_stops hc (es ++ (ds ++ r))
  rw [f.strtod_eq h hm hstops hx hmant rfl, exponentPart_digits hc hes hne hds]

/-- More digits make no smaller number. -/
theorem digitsVal_le (ds t : Bytes) : digitsVal 10 ds ≤ digitsVal 10 (ds ++ t) ∧
    digitsVal 10 t ≤ digitsVal 10 (ds ++ t) := by
  rw [digitsVal_append]
  have hmul : digitsVal 10 ds ≤ digitsVal 10 ds * 10 ^ t.length :=
    Nat.le_mul_of_pos_right _ (Nat.pow_pos (by omega))
  omega

/-- A mantissa is read. -/
theorem mantissaPart_self (f : Front) (hm : Mantissa (isBaseDigit f.base) m) :
    ∃ n p, mantissaPart f.base m = some (n, p, m.length) := by
  obtain ⟨n, p, hmant⟩ := mantissaPart_complete (r := []) f.digit_point hm rfl (fun h => by cases h)
  rw [List.append_nil] at hmant
  exact ⟨n, p, hmant⟩

/-- **Digits behind a number that is settled** do not change its value, and neither does anything
else: it has nothing that they could prolong. -/
theorem Settled.strtod_append (h : Settled str) (after : Bytes) :
    (strtod (str ++ after)).1 = (strtod str).1 := by
  cases h with
  | @intro f m es ds c hok hm hc hes hne hds hends =>
    obtain ⟨n, p, hmant⟩ := mantissaPart_self f hm
    have happend : f.text ++ (m ++ c :: (es ++ ds)) ++ after =
        f.text ++ (m ++ c :: (es ++ (ds ++ after))) := by simp
    have hself := strtod_exponent hok hm hc hes hne hds hmant []
    rw [List.append_nil, List.takeWhile_nil, List.append_nil] at hself
    rw [happend, strtod_exponent hok hm hc hes hne hds hmant after]
    rw [hself] at hends ⊢
    have hle := (digitsVal_le ds (after.takeWhile isDigit)).1
    have hpos := Nat.zero_lt_of_lt f.one_lt_scale
    rcases hends with hzero | ⟨rfl, hzero⟩ | ⟨hplus, hinf⟩
    · obtain rfl : n = 0 := (mantissaPart_zero_iff f.base_pos f.digit_point hm hmant).mpr hzero
      have hnull (e : Int) : (Double.ofScaled (f.sg = [0x2D]) 0 f.scale e).isZero = true := by
        rw [Double.ofScaled_zero_iff hpos]
        simp
      exact Double.ofScaled_ends.1 (hnull _) (hnull _)
    · refine Double.ofScaled_ends.1 (Double.ofScaled_zero_mono hpos ?_ hzero) hzero
      rw [if_pos rfl]
      omega
    · refine Double.ofScaled_ends.2 (Double.ofScaled_isInf_mono hpos ?_ hinf) hinf
      rw [if_neg hplus]
      omega

/-- Digits that make a number with an exponent zero or infinite, unless its mantissa is zero: enough
of them behind the exponent, which is negative or not. -/
theorem exists_after (es : Bytes) (hok : f.Ok) (hm : Mantissa (isBaseDigit f.base) m)
    (hc : c = f.lower ∨ c = f.upper) (hes : es = [] ∨ es = [0x2B] ∨ es = [0x2D])
    (hnz : ¬ ∀ c ∈ m, c = 0x30 ∨ c = 0x2E) :
    ∃ t : Bytes, ∀ ds : Bytes, (∀ c ∈ ds, isDigit c = true) →
      if es = [0x2D] then (strtod (f.text ++ (m ++ c :: (es ++ (ds ++ t))))).1.isZero = true
      else (strtod (f.text ++ (m ++ c :: (es ++ (ds ++ t))))).1.isInf = true := by
  obtain ⟨n, p, hmant⟩ := mantissaPart_self f hm
  have hn : 0 < n := by
    rw [Nat.pos_iff_ne_zero, Ne, mantissaPart_zero_iff f.base_pos f.digit_point hm hmant]
    exact hnz
  obtain ⟨small, hsmall⟩ := Double.exists_isZero (f.sg = [0x2D]) n f.one_lt_scale
  obtain ⟨large, hlarge⟩ := Double.exists_isInf (f.sg = [0x2D]) f.one_lt_scale hn
  obtain ⟨t, hne, ht, hle⟩ := exists_digits (small + large + f.shift * p)
  refine ⟨t, fun ds hds => ?_⟩
  have hsome : ds ++ t ≠ [] := fun hnil => hne (List.append_eq_nil_iff.mp hnil).2
  have hval := strtod_exponent hok hm hc hes hsome (List.forall_mem_append.mpr ⟨hds, ht⟩) hmant []
  rw [List.append_nil, List.takeWhile_nil, List.append_nil] at hval
  rw [hval]
  have hmore := (digitsVal_le ds t).2
  split
  · exact hsmall _ (by omega)
  · exact hlarge _ (by omega)

/-- **A number that keeps its value** whatever is behind it is settled: for every other number some
bytes are found that change its value. Without an exponent a digit and a long exponent of either
sign make it infinite or zero; with one, more digits of the exponent do, unless the value is at that
end already. -/
theorem settled_of_append (h : NumberRule str)
    (hown : ∀ after, (strtod (str ++ after)).1 = (strtod str).1) : Settled str := by
  obtain ⟨f, m, ex, hok, rfl, hm, hex⟩ := Front.exists_of_rule h
  cases hex with
  | absent =>
    -- an exponent of either sign, behind one more digit
    exfalso
    have hdigit : isBaseDigit f.base 0x31 = true := by
      obtain ⟨sg, mark⟩ := f
      cases mark <;> rfl
    have hnz : ¬ ∀ c ∈ m ++ [0x31], c = 0x30 ∨ c = 0x2E := fun hall =>
      absurd (hall 0x31 (by simp)) (by decide)
    obtain ⟨t, hinf⟩ := exists_after [] hok (hm.snoc hdigit) (.inl rfl) (.inl rfl) hnz
    obtain ⟨u, hzero⟩ :=
      exists_after [0x2D] hok (hm.snoc hdigit) (.inl rfl) (.inr (.inr rfl)) hnz
    have hinf := hinf [] (by simp)
    have hzero := hzero [] (by simp)
    have happend (es t : Bytes) : f.text ++ (m ++ [0x31] ++ f.lower :: (es ++ ([] ++ t))) =
        f.text ++ (m ++ []) ++ 0x31 :: f.lower :: (es ++ t) := by simp
    rw [if_neg (by simp), happend, hown] at hinf
    rw [if_pos rfl, happend, hown] at hzero
    rw [Double.isInf_of_isZero hzero] at hinf
    cases hinf
  | @present c es ds hc hes hne hds =>
    refine .intro hok hm hc hes hne hds (or_iff_not_imp_left.mpr fun hnz => ?_)
    obtain ⟨t, hends⟩ := exists_after es hok hm hc hes hnz
    have hends := hends ds hds
    have happend : f.text ++ (m ++ c :: (es ++ (ds ++ t))) =
        f.text ++ (m ++ c :: (es ++ ds)) ++ t := by simp
    rw [happend, hown] at hends
    split at hends
    · next hminus => exact .inl ⟨hminus, hends⟩
    · next hplus => exact .inr ⟨hplus, hends⟩

/-- A byte that is no part of a number goes on with none of its parts: not with the digits, not with
a prefix and not with an exponent. -/
theorem ends_of_part (f : Front) (hafter : after.head?.any isNumberPart = false) :
    Stops f.base after ∧ (∀ d ∈ after.head?, d ≠ 0x78 ∧ d ≠ 0x58) ∧
      (exponentPart f.lower f.upper after).1 = 0 ∧ after.takeWhile isDigit = [] := by
  cases after with
  | nil => exact ⟨stops_nil, fun d hd => (by cases hd), rfl, rfl⟩
  | cons c after =>
    have hpart : isNumberPart c = false := hafter
    simp only [isNumberPart, Bool.or_eq_false_iff, decide_eq_false_iff_not] at hpart
    obtain ⟨⟨⟨⟨⟨⟨⟨⟨⟨hpoint, -⟩, -⟩, he⟩, hE⟩, hp⟩, hP⟩, hx⟩, hX⟩, hhex⟩ := hpart
    have hdigit : isDigit c = false := by
      simp only [isHexdigit, Bool.or_eq_false_iff] at hhex
      exact hhex.1.1
    refine ⟨⟨?_, ?_⟩, ?_, ?_, ?_⟩
    · obtain ⟨sg, mark⟩ := f
      cases mark with
      | none => exact (congrFun isBaseDigit_ten c).trans hdigit
      | some x => exact (congrFun isBaseDigit_sixteen c).trans hhex
    · rintro ⟨⟩
      exact hpoint rfl
    · rintro d ⟨⟩
      exact ⟨hx, hX⟩
    · obtain ⟨sg, mark⟩ := f
      cases mark with
      | none => exact exponentPart_none (by rintro ⟨⟩; exact he rfl) (by rintro ⟨⟩; exact hE rfl)
      | some x => exact exponentPart_none (by rintro ⟨⟩; exact hp rfl) (by rintro ⟨⟩; exact hP rfl)
    · rw [List.takeWhile_cons, hdigit]
      rfl

/-- **A number whose next byte cannot go on** has its own value, as if its bytes ended there. -/
theorem strtod_alone (h : NumberRule str) (hafter : after.head?.any isNumberPart = false) :
    (strtod (str ++ after)).1 = (strtod str).1 := by
  obtain ⟨f, m, ex, hok, rfl, hm, hex⟩ := Front.exists_of_rule h
  obtain ⟨n, p, hmant⟩ := mantissaPart_self f hm
  obtain ⟨hstops, hx, hexponent, htake⟩ := ends_of_part f hafter
  cases hex with
  | absent =>
    have hself := f.strtod_eq hok hm stops_nil (fun c hc => by cases hc) hmant rfl
    rw [List.append_nil, List.append_assoc, f.strtod_eq hok hm hstops hx hmant rfl, hexponent]
    rw [List.append_nil] at hself
    exact hself.symm
  | @present c es ds hc hes hne hds =>
    have happend : f.text ++ (m ++ c :: (es ++ ds)) ++ after =
        f.text ++ (m ++ c :: (es ++ (ds ++ after))) := by simp
    have hself := strtod_exponent hok hm hc hes hne hds hmant []
    rw [List.append_nil, List.takeWhile_nil] at hself
    rw [happend, strtod_exponent hok hm hc hes hne hds hmant after, htake, hself]

/-! ## Keys -/

/-- A number has no zero byte, so that the copy in a key has all of it. By the two rules for
numbers, whose parts are signs, digits, points and letters. -/
theorem zero_notMem_rule (h : NumberRule str) : 0 ∉ str := by
  have hsign {sg : Bytes} (hsg : sg = [] ∨ sg = [0x2D]) : 0 ∉ sg := by
    rcases hsg with rfl | rfl <;> simp
  have hparts {digit : UInt8 → Bool} {lower upper : UInt8} {m ex : Bytes}
      (hm : Mantissa digit m) (hex : Exponent lower upper ex) (hdigit : digit 0 = false)
      (hlower : 0 ≠ lower) (hupper : 0 ≠ upper) : 0 ∉ m ++ ex := by
    intro hmem
    rcases List.mem_append.mp hmem with hmem | hmem
    · rcases hm.mem hmem with hzero | hzero
      · rw [hdigit] at hzero
        cases hzero
      · cases hzero
    · rcases hex.mem hmem with hzero | hzero | hzero | hzero | hzero
      · exact hlower hzero
      · exact hupper hzero
      all_goals cases hzero
  cases h with
  | dec hsg hm hex =>
    rw [List.mem_append, not_or]
    exact ⟨hsign hsg, hparts hm hex rfl (by decide) (by decide)⟩
  | @hex sg m ex x hsg hx hm hex =>
    have hletter : 0 ≠ x := by rcases hx with rfl | rfl <;> decide
    rw [List.mem_append, List.mem_cons, List.mem_cons, not_or, not_or, not_or]
    exact ⟨hsign hsg, by decide, hletter, hparts hm hex rfl (by decide) (by decide)⟩

/-- The keys of a number are made of its value where the memory behind it does not change this. -/
theorem initKey_congr {after' : Bytes} (alloc : Bool) (hnul : 0 ∉ str)
    (hval : (strtod (str ++ after)).1 = (strtod (str ++ after')).1) :
    initKey alloc .number str after = initKey alloc .number str after' := by
  unfold initKey
  rw [strncpy_length hnul]
  dsimp only
  rw [if_pos rfl, if_pos rfl, hval]

/-- **Own values are a matter of `strtod`**: a key has the value of its own bytes exactly if no
bytes behind its block change what `strtod` makes of them. -/
theorem ownValue_of_append (hnul : 0 ∉ str) :
    OwnValue str ↔ ∀ after, (strtod (str ++ after)).1 = (strtod str).1 := by
  constructor
  · intro h after
    have hnum := h.num after _ rfl
    rw [if_pos rfl, strncpy_length hnul] at hnum
    exact hnum
  · intro h
    have hinit (alloc : Bool) (after after' : Bytes) :
        initKey alloc .number str after = initKey alloc .number str after' :=
      initKey_congr alloc hnul ((h after).trans (h after').symm)
    have hhas (s : KeySet) (alloc : Bool) (after after' : Bytes) :
        s.hasKey alloc .number str after = s.hasKey alloc .number str after' := by
      rw [hasKey, hasKey, hinit alloc after after']
    refine ⟨fun after p hp => ?_, hhas, fun s heap probeAfter keyAfter => ?_⟩
    · cases hp
      rw [if_pos rfl, strncpy_length hnul]
      exact h after
    · rw [addKey, addKey]
      dsimp only
      rw [hhas s heap.probe probeAfter heap.probeAfter, hinit heap.key keyAfter heap.keyAfter]

/-- **The value of a numeric key.** Whatever is in the memory behind its block, a number is stored
with the value of its own text, and found and added by it, exactly if it is settled; and any number
is where the next byte is no part of one. The block has no terminator, so that `strtod` goes on with
the bytes behind it. -/
theorem ownValue_iff (h : NumberRule str) :
    (OwnValue str ↔ Settled str) ∧
      ∀ after, after.head?.any isNumberPart = false →
        ∀ p, initKey true .number str after = some p → p.num = (strtod str).1 := by
  have hnul := zero_notMem_rule h
  refine ⟨(ownValue_of_append hnul).trans ⟨settled_of_append h, Settled.strtod_append⟩, ?_⟩
  rintro after hafter p ⟨⟩
  rw [if_pos rfl, strncpy_length hnul]
  exact strtod_alone h hafter

/-- The number `0e1`, whose value is zero whatever digits its exponent gets. -/
theorem ownValue_zero :
    (OwnValue (ascii "0e1") ↔ Settled (ascii "0e1")) ∧
      ∀ after, after.head?.any isNumberPart = false →
        ∀ p, initKey true .number (ascii "0e1") after = some p →
          p.num = (strtod (ascii "0e1")).1 := by
  have hm : Mantissa isDigit [0x30] :=
    .whole (List.cons_ne_nil _ _) (List.forall_mem_singleton.mpr rfl)
  have hex : Exponent 0x65 0x45 (0x65 :: ([] ++ [0x31])) :=
    .present (.inl rfl) (.inl rfl) (List.cons_ne_nil _ _) (List.forall_mem_singleton.mpr rfl)
  exact ownValue_iff (.dec (.inl rfl) hm hex)

/-- The number `1` before a `2` in memory is stored as 12. -/
theorem one_reads_on : ¬ OwnValue (ascii "1") := by
  intro h
  exact absurd (h.num (ascii "2") _ rfl) (by decide +kernel)

end

end KeySet

end Eltn
