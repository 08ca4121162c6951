import Eltn.Lexer.Names

/-!
# Numbers

The lexer takes the longest run of bytes that can stand in a number and lets `strtod` decide: the
run is a number if `strtod` reads all of it as a finite value. `numberToken_iff` compares that
with the rule `number` of the grammar, part by part: what a part of `strtod` reads has the form of
the rule (`…_sound`), and it reads all that has (`…_complete`).
-/

namespace Eltn

/-! ## The grammar -/

/-- Digits with at most one point among or before them. A point needs a digit on one of its sides.
-/
inductive Mantissa (digit : UInt8 → Bool) : Bytes → Prop
  | whole {ds : Bytes} : ds ≠ [] → (∀ c ∈ ds, digit c = true) → Mantissa digit ds
  | point {ds fs : Bytes} : ds ≠ [] → (∀ c ∈ ds, digit c = true) → (∀ c ∈ fs, digit c = true) →
      Mantissa digit (ds ++ 0x2E :: fs)
  | fraction {fs : Bytes} : fs ≠ [] → (∀ c ∈ fs, digit c = true) → Mantissa digit (0x2E :: fs)

/-- An optional exponent in decimal digits, with a sign of its own if it has one. -/
inductive Exponent (lower upper : UInt8) : Bytes → Prop
  | absent : Exponent lower upper []
  | present {c : UInt8} {sg ds : Bytes} : c = lower ∨ c = upper →
      sg = [] ∨ sg = [0x2B] ∨ sg = [0x2D] → ds ≠ [] → (∀ c ∈ ds, isDigit c = true) →
      Exponent lower upper (c :: (sg ++ ds))

/-- `number`, with the exponents of hexadecimal numbers in decimal digits: an optional minus sign, a
prefix for hexadecimal numbers, a mantissa and an exponent. -/
inductive NumberRule : Bytes → Prop
  | dec {sg m ex : Bytes} : sg = [] ∨ sg = [0x2D] → Mantissa isDigit m → Exponent 0x65 0x45 ex →
      NumberRule (sg ++ (m ++ ex))
  | hex {sg m ex : Bytes} {x : UInt8} : sg = [] ∨ sg = [0x2D] → x = 0x78 ∨ x = 0x58 →
      Mantissa isHexdigit m → Exponent 0x70 0x50 ex → NumberRule (sg ++ 0x30 :: x :: (m ++ ex))

/-! ## Doubles are no NaN -/

namespace Double

/-- A magnitude up to that of infinity is no NaN, whatever the sign. -/
theorem isNaN_ofMagnitude {neg : Bool} {m : Nat} (hm : m ≤ 2047 * 2 ^ 52) :
    (ofMagnitude neg m).isNaN = false := by
  have hbits : (ofMagnitude neg m).bits.toNat = m + if neg then 2 ^ 63 else 0 := by
    rw [ofMagnitude, BitVec.toNat_ofNat, Nat.mod_eq_of_lt]
    cases neg <;> simp <;> omega
  simp only [isNaN, exponent, fraction, hbits, Bool.and_eq_false_iff, decide_eq_false_iff_not,
    not_not, Nat.reducePow, Nat.reduceMul] at hm ⊢
  cases neg <;> simp <;> omega

/-- Rounding a decimal or hexadecimal number gives a number or an infinity, never a NaN. -/
theorem isNaN_ofScaled (neg : Bool) (m base : Nat) (e : Int) :
    (ofScaled neg m base e).isNaN = false := by
  unfold ofScaled round
  split
  · exact isNaN_ofMagnitude (Nat.zero_le _)
  · exact isNaN_ofMagnitude (Nat.min_le_right _ _)

end Double

section
variable {base n k : Nat} {lower upper c : UInt8} {s t r w sg ds : Bytes}

/-! ## Digits and signs -/

/-- The digits of `strtod` to the base 10 are those of the C library. -/
theorem isBaseDigit_ten : isBaseDigit 10 = isDigit := by
  funext c
  simp only [isBaseDigit, digitVal, isDigit, UInt8.le_iff_toNat_le]
  grind

/-- The digits of `strtod` to the base 16 are those of the C library. -/
theorem isBaseDigit_sixteen : isBaseDigit 16 = isHexdigit := by
  funext c
  simp only [isBaseDigit, digitVal, isHexdigit, UInt8.le_iff_toNat_le]
  grind

/-- What is left behind the digits at the front. -/
theorem drop_takeWhile (p : UInt8 → Bool) (s : Bytes) :
    s.drop (s.takeWhile p).length = s.dropWhile p := by
  calc s.drop (s.takeWhile p).length
      = (s.takeWhile p ++ s.dropWhile p).drop (s.takeWhile p).length := by
        rw [List.takeWhile_append_dropWhile]
    _ = s.dropWhile p := List.drop_left

/-! ## The parts of a number -/

/-- What `strtod` reads as a mantissa is one of the grammar, at the front of the bytes and of the
length that it gives. By whether a point follows the digits: it is a whole number, or a fraction
with or without digits in front. -/
theorem mantissaPart_sound {m f len : Nat} (h : mantissaPart base s = some (m, f, len)) :
    ∃ t r, s = t ++ r ∧ t.length = len ∧ Mantissa (isBaseDigit base) t := by
  have hint : ∀ c ∈ s.takeWhile (isBaseDigit base), isBaseDigit base c = true :=
    fun c => List.mem_takeWhile_imp
  have hsplit : s = s.takeWhile (isBaseDigit base) ++ s.dropWhile (isBaseDigit base) :=
    List.takeWhile_append_dropWhile.symm
  simp only [mantissaPart, drop_takeWhile] at h
  generalize s.takeWhile (isBaseDigit base) = int at *
  generalize s.dropWhile (isBaseDigit base) = r at *
  subst hsplit
  by_cases hdot : r.head? = some 0x2E
  · obtain ⟨r, rfl⟩ : ∃ tail, r = 0x2E :: tail := by
      cases r with
      | nil => cases hdot
      | cons c r => exact ⟨r, by rw [(Option.some.inj hdot)]⟩
    have hfrac : ∀ c ∈ r.takeWhile (isBaseDigit base), isBaseDigit base c = true :=
      fun c => List.mem_takeWhile_imp
    have hr : r = r.takeWhile (isBaseDigit base) ++ r.dropWhile (isBaseDigit base) :=
      List.takeWhile_append_dropWhile.symm
    simp only [List.head?_cons, if_true, List.tail_cons] at h
    generalize r.takeWhile (isBaseDigit base) = frac at *
    generalize r.dropWhile (isBaseDigit base) = r' at *
    subst hr
    split at h
    · cases h
    next hne =>
    cases h
    refine ⟨int ++ 0x2E :: frac, r', by simp, by simp [Nat.add_comm 1], ?_⟩
    by_cases hnil : int = []
    · subst hnil
      exact .fraction (fun hf => hne ⟨rfl, hf⟩) hfrac
    · exact .point hnil hint hfrac
  · simp only [hdot, if_false] at h
    split at h
    · cases h
    next hne =>
    cases h
    exact ⟨int, r, rfl, rfl, .whole (fun hi => hne ⟨hi, trivial⟩) hint⟩

/-- A mantissa of the grammar is read to its end, if no digit and no point stands behind it; a point
is no digit of the base. -/
theorem mantissaPart_complete (hdot : isBaseDigit base 0x2E = false)
    (ht : Mantissa (isBaseDigit base) t) (hr : r.head?.any (isBaseDigit base) = false)
    (hrdot : r.head? ≠ some 0x2E) :
    ∃ m f, mantissaPart base (t ++ r) = some (m, f, t.length) := by
  cases ht with
  | whole hne hds =>
    obtain ⟨htake, -⟩ := takeWhile_run hds hr
    simp [mantissaPart, htake, hrdot, hne]
  | @point ds fs hne hds hfs =>
    have hstop : (0x2E :: (fs ++ r)).head?.any (isBaseDigit base) = false := by simpa using hdot
    obtain ⟨htake, -⟩ := takeWhile_run hds hstop
    obtain ⟨hftake, -⟩ := takeWhile_run hfs hr
    simp [mantissaPart, htake, hftake, hne, Nat.add_comm 1]
  | @fraction fs hne hfs =>
    obtain ⟨hftake, -⟩ := takeWhile_run hfs hr
    simp [mantissaPart, hdot, hftake, hne, Nat.add_comm 1]

/-- What `strtod` reads as the sign of an exponent is a sign or nothing. -/
theorem signPart_sound (s : Bytes) : ∃ sg r, s = sg ++ r ∧ sg.length = (signPart s).2 ∧
    (sg = [] ∨ sg = [0x2B] ∨ sg = [0x2D]) := by
  cases s with
  | nil => exact ⟨[], [], rfl, rfl, .inl rfl⟩
  | cons c s =>
    rw [signPart]
    split
    · next hc => exact ⟨[c], s, rfl, rfl, .inr (.inr (by rw [hc]))⟩
    split
    · next hc => exact ⟨[c], s, rfl, rfl, .inr (.inl (by rw [hc]))⟩
    · exact ⟨[], c :: s, rfl, rfl, .inl rfl⟩

/-- A sign is read, and nothing else is taken for one. Where there is none, nothing is read. -/
theorem signPart_complete (hr : r.head? ≠ some 0x2B ∧ r.head? ≠ some 0x2D)
    (hsg : sg = [] ∨ sg = [0x2B] ∨ sg = [0x2D]) : (signPart (sg ++ r)).2 = sg.length := by
  rcases hsg with rfl | rfl | rfl
  · cases r with
    | nil => rfl
    | cons c r =>
      obtain ⟨hplus, hminus⟩ : c ≠ 0x2B ∧ c ≠ 0x2D := by simpa using hr
      simp [signPart, hplus, hminus]
  · simp [signPart]
  · simp [signPart]

/-- What `strtod` reads as an exponent is one of the grammar; without a digit it reads nothing, not
even the letter. -/
theorem exponentPart_sound (lower upper : UInt8) (s : Bytes) :
    ∃ t r, s = t ++ r ∧ t.length = (exponentPart lower upper s).2 ∧ Exponent lower upper t := by
  cases s with
  | nil => exact ⟨[], [], rfl, rfl, .absent⟩
  | cons c s =>
    obtain ⟨sg, r, hs, hlen, hsg⟩ := signPart_sound s
    rw [exponentPart]
    dsimp only
    split
    · next hc =>
      rw [← hlen, hs, List.drop_left, isBaseDigit_ten]
      split
      · exact ⟨[], _, rfl, rfl, .absent⟩
      · next hne =>
        refine ⟨c :: (sg ++ r.takeWhile isDigit), r.dropWhile isDigit, ?_, ?_,
          .present hc hsg hne fun c => List.mem_takeWhile_imp⟩
        · simp
        · simp only [List.length_cons, List.length_append]
          omega
    · exact ⟨[], _, rfl, rfl, .absent⟩

/-- An exponent of the grammar at the end of the bytes is read to that end, be it absent or not. -/
theorem exponentPart_complete (ht : Exponent lower upper t) :
    (exponentPart lower upper t).2 = t.length := by
  cases ht with
  | absent => rfl
  | @present c sg ds hc hsg hne hds =>
    have hhead : ds.head? ≠ some 0x2B ∧ ds.head? ≠ some 0x2D := by
      cases ds with
      | nil => exact absurd rfl hne
      | cons d ds =>
        have hd := hds d List.mem_cons_self
        constructor <;> (intro h; cases h; cases hd)
    have htake : ds.takeWhile isDigit = ds := List.takeWhile_eq_self_iff.mpr hds
    simp only [exponentPart, if_pos hc, signPart_complete hhead hsg, List.drop_left,
      isBaseDigit_ten, htake, if_neg hne, List.length_cons, List.length_append]
    omega

/-! ## The whole run -/

/-- A mantissa has digits and a point only. -/
theorem Mantissa.mem {digit : UInt8 → Bool} (h : Mantissa digit s) (hc : c ∈ s) :
    digit c = true ∨ c = 0x2E := by
  cases h with
  | whole _ hds => exact .inl (hds c hc)
  | point _ hds hfs =>
    rcases List.mem_append.mp hc with hc | hc
    · exact .inl (hds c hc)
    · rcases List.mem_cons.mp hc with rfl | hc
      · exact .inr rfl
      · exact .inl (hfs c hc)
  | fraction _ hfs =>
    rcases List.mem_cons.mp hc with rfl | hc
    · exact .inr rfl
    · exact .inl (hfs c hc)

/-- A mantissa is not empty: it has a digit. -/
theorem Mantissa.ne_nil {digit : UInt8 → Bool} (h : Mantissa digit s) : s ≠ [] := by
  cases h with
  | whole hne _ => exact hne
  | point | fraction => simp

/-- An exponent has its letter, a sign and digits only. -/
theorem Exponent.mem (h : Exponent lower upper s) (hc : c ∈ s) :
    c = lower ∨ c = upper ∨ c = 0x2B ∨ c = 0x2D ∨ isDigit c = true := by
  cases h with
  | absent => cases hc
  | @present b sg ds hb hsg _ hds =>
    rcases List.mem_cons.mp hc with rfl | hc
    · exact hb.imp_right .inl
    rcases List.mem_append.mp hc with hc | hc
    · rcases hsg with rfl | rfl | rfl
      · cases hc
      · simp [List.mem_singleton.mp hc]
      · simp [List.mem_singleton.mp hc]
    · exact .inr (.inr (.inr (.inr (hds c hc))))

/-- `strtod` takes the bytes for a hexadecimal number where they start with `0x` or `0X`. -/
theorem hexPrefix_iff :
    hexPrefix s = true ↔ ∃ x r, s = 0x30 :: x :: r ∧ (x = 0x78 ∨ x = 0x58) := by
  cases s with
  | nil => simp [hexPrefix]
  | cons a s =>
    cases s with
    | nil => simp [hexPrefix]
    | cons b s => simp [hexPrefix]

/-- The first byte of a number is no whitespace, no sign and no letter of `inf` or `nan`. So
`strtod` neither skips it nor takes it for the start of something else. -/
theorem number_lead (hc : isDigit c = true ∨ c = 0x2E) :
    isspace c = false ∧ c ≠ 0x2B ∧ c ≠ 0x2D ∧ tolower c ≠ 0x69 ∧ tolower c ≠ 0x6E := by
  rcases hc with hc | rfl
  · have hdigit : 0x30 ≤ c.toNat ∧ c.toNat ≤ 0x39 := by
      simpa [isDigit, UInt8.le_iff_toNat_le] using hc
    have hlower : tolower c = c := by
      rw [tolower, if_neg]
      simp only [UInt8.le_iff_toNat_le, UInt8.reduceToNat]
      omega
    rw [hlower]
    simp only [isspace, UInt8.le_iff_toNat_le, ← UInt8.toNat_inj, ne_eq, UInt8.reduceToNat]
    simp
    omega
  · decide

/-- What `strtod` does behind the sign, at a digit or a point: a hexadecimal number where its prefix
has a mantissa behind it, else a decimal one, else nothing. `inf` and `nan`, which `strtod` reads
too, start with other bytes. -/
theorem strtod_cases (hsg : sg = [] ∨ sg = [0x2D]) (hc : isDigit c = true ∨ c = 0x2E) :
    (∃ m f len, hexPrefix (c :: r) = true ∧
        mantissaPart 16 ((c :: r).drop 2) = some (m, f, len) ∧ strtod (sg ++ c :: r) =
          (.ofScaled (sg = [0x2D]) m 2
              ((exponentPart 0x70 0x50 ((c :: r).drop (2 + len))).1 - 4 * f),
            sg.length + 2 + len + (exponentPart 0x70 0x50 ((c :: r).drop (2 + len))).2)) ∨
      (hexPrefix (c :: r) = true → mantissaPart 16 ((c :: r).drop 2) = none) ∧
        ((∃ m f len, mantissaPart 10 (c :: r) = some (m, f, len) ∧ strtod (sg ++ c :: r) =
            (.ofScaled (sg = [0x2D]) m 10 ((exponentPart 0x65 0x45 ((c :: r).drop len)).1 - f),
              sg.length + len + (exponentPart 0x65 0x45 ((c :: r).drop len)).2)) ∨
          mantissaPart 10 (c :: r) = none ∧ (strtod (sg ++ c :: r)).2 = 0) := by
  obtain ⟨hc, hplus, hminus, hinf, hnan⟩ := number_lead hc
  have hspace : (sg ++ c :: r).takeWhile isspace = [] := by
    rcases hsg with rfl | rfl
    · simp [hc]
    · rfl
  have hsign : (signPart (sg ++ c :: r)).2 = sg.length := by
    refine signPart_complete ?_ (hsg.imp_right .inr)
    constructor <;> (intro h; cases h; contradiction)
  have hneg : (signPart (sg ++ c :: r)).1 = decide (sg = [0x2D]) := by
    rcases hsg with rfl | rfl
    · simp [signPart, hplus, hminus]
    · rfl
  unfold strtod
  simp only [hspace, List.length_nil, Nat.zero_add, List.drop_zero, hsign, hneg, List.drop_left]
  cases hhex : (if hexPrefix (c :: r) = true then mantissaPart 16 ((c :: r).drop 2) else none) with
  | some p =>
    obtain ⟨m, f, len⟩ := p
    split at hhex
    · next hpre => exact .inl ⟨m, f, len, hpre, hhex, rfl⟩
    · cases hhex
  | none =>
    refine .inr ⟨fun hpre => by rwa [if_pos hpre] at hhex, ?_⟩
    cases hdec : mantissaPart 10 (c :: r) with
    | some p =>
      obtain ⟨m, f, len⟩ := p
      exact .inl ⟨m, f, len, rfl, rfl⟩
    | none =>
      refine .inr ⟨rfl, ?_⟩
      simp [List.isPrefixOf, hinf.symm, hnan.symm]

/-- **What `strtod` reads in full** derives from the rule, if it starts with a digit or a point, a
minus sign in front or not. -/
theorem strtod_sound (hsg : sg = [] ∨ sg = [0x2D]) (hc : isDigit c = true ∨ c = 0x2E)
    (h : (strtod (sg ++ c :: r)).2 = (sg ++ c :: r).length) : NumberRule (sg ++ c :: r) := by
  rcases strtod_cases (r := r) hsg hc with ⟨m, f, len, hhex, hm, heq⟩ |
    ⟨-, ⟨m, f, len, hm, heq⟩ | ⟨-, heq⟩⟩
  · obtain ⟨x, s, hs, hx⟩ := hexPrefix_iff.mp hhex
    rw [hs] at hm heq h ⊢
    obtain ⟨t, u, hu, hlen, ht⟩ := mantissaPart_sound hm
    obtain ⟨ex, v, hv, hexlen, hex⟩ := exponentPart_sound 0x70 0x50 u
    rw [List.drop_succ_cons, List.drop_succ_cons, List.drop_zero] at hu
    have hdrop : (0x30 :: x :: s).drop (2 + len) = u := by
      rw [hu, ← hlen, Nat.add_comm 2]
      simp
    rw [heq, hdrop, ← hexlen, hu, hv] at h
    simp only [List.length_append, List.length_cons] at h
    obtain rfl : v = [] := List.eq_nil_of_length_eq_zero (by omega)
    rw [hu, hv, List.append_nil]
    rw [isBaseDigit_sixteen] at ht
    exact .hex hsg hx ht hex
  · obtain ⟨t, u, hu, hlen, ht⟩ := mantissaPart_sound hm
    obtain ⟨ex, v, hv, hexlen, hex⟩ := exponentPart_sound 0x65 0x45 u
    rw [heq, hu, ← hlen, List.drop_left, ← hexlen, hv] at h
    simp only [List.length_append] at h
    obtain rfl : v = [] := List.eq_nil_of_length_eq_zero (by omega)
    rw [hu, hv, List.append_nil]
    rw [isBaseDigit_ten] at ht
    exact .dec hsg ht hex
  · rw [heq] at h
    simp at h

/-- **What derives from the rule** is read in full by `strtod`, and not as a NaN; it may be too
great for a double. A decimal number holds no `x`, so that it is not taken for a hexadecimal one;
for either base the mantissa is read up to its exponent, and that up to its end. -/
theorem strtod_complete (h : NumberRule w) :
    (strtod w).2 = w.length ∧ (strtod w).1.isNaN = false := by
  cases h with
  | @dec sg m ex hsg hm hex =>
    obtain ⟨c, r, hcr, hc⟩ : ∃ c r, m ++ ex = c :: r ∧ (isDigit c = true ∨ c = 0x2E) := by
      cases m with
      | nil => exact absurd rfl hm.ne_nil
      | cons c m => exact ⟨c, m ++ ex, rfl, hm.mem List.mem_cons_self⟩
    have hnox : hexPrefix (c :: r) = false := by
      rw [Bool.eq_false_iff, Ne, hexPrefix_iff, ← hcr]
      rintro ⟨x, s, hs, hx⟩
      rcases List.mem_append.mp (show x ∈ m ++ ex by simp [hs]) with hmem | hmem
      · have := hm.mem hmem
        rcases hx with rfl | rfl <;> simp [isDigit] at this
      · have := hex.mem hmem
        rcases hx with rfl | rfl <;> simp [isDigit] at this
    have hstop : ex.head?.any (isBaseDigit 10) = false ∧ ex.head? ≠ some 0x2E := by
      cases hex with
      | absent => simp
      | present hc _ _ _ => rcases hc with rfl | rfl <;> simp [isBaseDigit, digitVal]
    obtain ⟨n, f, hmant⟩ := mantissaPart_complete rfl (isBaseDigit_ten ▸ hm) hstop.1
      hstop.2
    rw [hcr] at hmant ⊢
    rcases strtod_cases (r := r) hsg hc with ⟨m', f', len, hhex, -, -⟩ |
      ⟨-, ⟨m', f', len, hm', heq⟩ | ⟨hm', -⟩⟩
    · rw [hnox] at hhex
      cases hhex
    · rw [hmant] at hm'
      cases hm'
      rw [heq, ← hcr, List.drop_left, exponentPart_complete hex]
      exact ⟨by simp [Nat.add_assoc], Double.isNaN_ofScaled _ _ _ _⟩
    · rw [hmant] at hm'
      cases hm'
  | @hex sg m ex x hsg hx hm hex =>
    have hpre : hexPrefix (0x30 :: x :: (m ++ ex)) = true := hexPrefix_iff.mpr ⟨x, _, rfl, hx⟩
    have hstop : ex.head?.any (isBaseDigit 16) = false ∧ ex.head? ≠ some 0x2E := by
      cases hex with
      | absent => simp
      | present hc _ _ _ => rcases hc with rfl | rfl <;> simp [isBaseDigit, digitVal]
    obtain ⟨n, f, hmant⟩ := mantissaPart_complete rfl (isBaseDigit_sixteen ▸ hm)
      hstop.1 hstop.2
    rcases strtod_cases (c := 0x30) (r := x :: (m ++ ex)) hsg (.inl rfl) with
      ⟨m', f', len, -, hm', heq⟩ | ⟨hnone, -⟩
    · rw [List.drop_succ_cons, List.drop_succ_cons, List.drop_zero, hmant] at hm'
      cases hm'
      have hdrop : (0x30 :: x :: (m ++ ex)).drop (2 + m.length) = ex := by
        rw [Nat.add_comm 2]
        simp
      rw [heq, hdrop, exponentPart_complete hex]
      refine ⟨?_, Double.isNaN_ofScaled _ _ _ _⟩
      simp only [List.length_append, List.length_cons]
      omega
    · rw [List.drop_succ_cons, List.drop_succ_cons, List.drop_zero, hmant] at hnone
      cases hnone hpre

/-- **The verdict of `parse_number`.** A run that starts as a number does is a number iff the rule
derives it, unless the rule derives it and its value is beyond the doubles. Nothing is asked of a
run that the rule does not derive: `1e400x` is invalid although what `strtod` reads of it
overflows. -/
theorem numberToken_iff (hsg : sg = [] ∨ sg = [0x2D]) (hc : isDigit c = true ∨ c = 0x2E)
    (hfin : NumberRule (sg ++ c :: r) → (strtod (sg ++ c :: r)).1.isInf = false) :
    Lexer.numberToken (sg ++ c :: r) = .number ↔ NumberRule (sg ++ c :: r) := by
  unfold Lexer.numberToken
  dsimp only
  constructor
  · intro h
    split at h
    · next hfull => exact strtod_sound hsg hc hfull.2.2
    · cases h
  · intro h
    obtain ⟨hfull, hnan⟩ := strtod_complete h
    rw [if_pos (by simp [hfull, hnan, hfin h])]

/-! ## The token -/

/-- A digit or a point leads a run of number bytes, and so does `-` before one: the scan takes the
whole run, whatever it is worth. -/
theorem scan_number {rest : Bytes} (hsg : sg = [] ∨ sg = [0x2D])
    (hc : isDigit c = true ∨ c = 0x2E) (hr : ∀ c ∈ r, isNumberPart c = true)
    (hrest : rest.head?.any isNumberPart = false) :
    scan (sg ++ c :: r ++ rest) = ⟨Lexer.numberToken (sg ++ c :: r), sg ++ c :: r, rest⟩ := by
  have hne : ∀ d, isDigit d = false → d ≠ 0x2E → c ≠ d := by
    rintro d hd hdot rfl
    rcases hc with hc | hc
    · rw [hd] at hc
      cases hc
    · exact hdot hc
  obtain ⟨htake, hdrop⟩ := takeWhile_run hr hrest
  rcases hsg with rfl | rfl
  · have hspace : isSpace c = false := by
      simp [isSpace, hne 0x0C rfl, hne 0x0A rfl, hne 0x0D rfl, hne 0x09 rfl, hne 0x0B rfl,
        hne 0x20 rfl]
    have hlead : Scan.lead c (r ++ rest) =
        Scan.run isNumberPart Lexer.numberToken [c] (r ++ rest) := by
      simp [Scan.lead, Lexer.punctuation, hne 0x5B rfl, hne 0x5D rfl, hne 0x7B rfl, hne 0x7D rfl,
        hne 0x3D rfl, hne 0x2C rfl, hne 0x3B rfl, hc]
    rw [scan, List.nil_append, List.cons_append, List.dropWhile_cons, if_neg (by simp [hspace])]
    dsimp only
    rw [hlead, Scan.run, htake, hdrop]
    rfl
  · have hlead : Scan.lead 0x2D (c :: (r ++ rest)) =
        Scan.run isNumberPart Lexer.numberToken [0x2D, c] (r ++ rest) := by
      have hminus : isDigit 0x2D = false := rfl
      simp [Scan.lead, Lexer.punctuation, hminus, hne 0x2D rfl, hc]
    have hscan : scan ([0x2D] ++ c :: r ++ rest) = Scan.lead 0x2D (c :: (r ++ rest)) := rfl
    rw [hscan, hlead, Scan.run, htake, hdrop]
    rfl

end

namespace Lexer

variable {σ : Type} {cs : CharSource σ} {src sg run rest : Bytes} {c : UInt8} {self : Lexer σ}

/-- **Number tokens follow the number grammar.** At a digit, a point, or `-` and one of these, the
lexer reads the longest run of number bytes, whose text is the token's and behind which it stays.
It is a number if the rule `number` derives it and invalid otherwise. Only of a run that the rule
derives is it asked that its value is not beyond the doubles. -/
theorem number_follows_rule (h : Ready cs src (sg ++ c :: run ++ rest) self)
    (hsg : sg = [] ∨ sg = [0x2D]) (hc : isDigit c = true ∨ c = 0x2E)
    (hrun : ∀ c ∈ run, isNumberPart c = true) (hrest : rest.head?.any isNumberPart = false)
    (hfin : NumberRule (sg ++ c :: run) → (strtod (sg ++ c :: run)).1.isInf = false) :
    ((nextToken cs self).1.1 = .number ↔ NumberRule (sg ++ c :: run)) ∧
      ((nextToken cs self).1.1 ≠ .number → (nextToken cs self).1.1 = .invalid) ∧
      (nextToken cs self).2.tokenString = sg ++ c :: run ∧
      Ready cs src rest (nextToken cs self).2 := by
  obtain ⟨⟨htok, htext, hready⟩, -⟩ := nextToken_agrees h
  rw [scan_number hsg hc hrun hrest] at htok htext hready
  refine ⟨by rw [htok]; exact numberToken_iff hsg hc hfin, fun hne => ?_, htext, hready⟩
  rw [htok] at hne ⊢
  unfold numberToken at hne ⊢
  dsimp only at hne ⊢
  split
  · next hnum => exact absurd (if_pos hnum) hne
  · rfl

/-- The run `-0x1.8p+1` before a comma, which the rule derives: it is a number. -/
theorem number_follows_rule_example :
    ((nextToken CharSource.ofBytes { source := ascii "-0x1.8p+1," }).1.1 = .number ↔
        NumberRule (ascii "-0x1.8p+1")) ∧
      ((nextToken CharSource.ofBytes { source := ascii "-0x1.8p+1," }).1.1 ≠ .number →
        (nextToken CharSource.ofBytes { source := ascii "-0x1.8p+1," }).1.1 = .invalid) ∧
      (nextToken CharSource.ofBytes { source := ascii "-0x1.8p+1," }).2.tokenString =
        ascii "-0x1.8p+1" ∧
      Ready CharSource.ofBytes (ascii "-0x1.8p+1,") (ascii ",")
        (nextToken CharSource.ofBytes { source := ascii "-0x1.8p+1," }).2 :=
  number_follows_rule (c := 0x30)
    (ready_ofBytes (ascii "-0x1.8p+1,")) (.inr rfl) (.inl rfl)
    (by decide +kernel) rfl (fun _ => by decide +kernel)

end Lexer

end Eltn
