import Eltn.Convert.Text

/-!
# UTF-16 input in memory

`C_Conv_char16_to_8` on an array of units with whatever stands behind it in memory. On units that
spell code points it does what `C_Conv_char32_to_8` does on these (`char16To8LoopIn_spelled`).
`read_utf16` does not look at `insz`: behind a surrogate that ends the array it reads a unit that is
not there (`units_inside_iff`).
-/

namespace Eltn

open Unicode

/-! ## The loop in memory -/

/-- What a turn of the loop comes to: the end of the loop, an index beyond `INT_MAX`, or the next
turn. -/
inductive Turn where
  | stop
  | overflow
  | next (i : Nat) (out : Bytes)

/-- A turn of the loop of `C_Conv_char16_to_8`, at the unit `i`: one code point is read and written.
The loop ends at units that are none and at a code point without room. -/
def char16Turn (mem : List Nat) (outsz i : Nat) (out : Bytes) : Turn :=
  let read := readUtf16 mem i
  if read.2 = 0 then .stop
  else if intMax < i + read.2 then .overflow
  else
    let written := writeUtf8 read.1 outsz out.length
    if written = [] then .stop
    else if intMax < out.length + written.length then .overflow
    else .next (i + read.2) (out ++ written)

/-- The loop of `C_Conv_char16_to_8`, on memory whose first `insz` units are its array; what lies
behind them may be read. -/
def char16To8LoopIn (insz : Nat) (mem : List Nat) (outsz : Nat) : Nat → Nat → Bytes → Option Bytes
  | 0, _, out => some out
  | fuel + 1, i, out =>
    if i < insz ∧ out.length < outsz then
      match char16Turn mem outsz i out with
      | .stop => some out
      | .overflow => none
      | .next i out => char16To8LoopIn insz mem outsz fuel i out
    else some out

/-- `C_Conv_char16_to_8` with the units `behind` behind its array. -/
def char16To8In (inbuf behind : List Nat) (outsz : Nat) : Option Bytes :=
  char16To8LoopIn inbuf.length (inbuf ++ behind) outsz inbuf.length 0 []

/-- The indices at which `read_utf16` reads. -/
def readUtf16Reads (mem : List Nat) (i : Nat) : List Nat :=
  if isSurrogate (mem.getD i 0) then [i, i + 1] else [i]

/-- The indices at which the loop reads, in the order of its turns, inside the array or not. -/
def char16Reads (insz : Nat) (mem : List Nat) (outsz : Nat) : Nat → Nat → Bytes → List Nat
  | 0, _, _ => []
  | fuel + 1, i, out =>
    if i < insz ∧ out.length < outsz then
      readUtf16Reads mem i ++
        match char16Turn mem outsz i out with
        | .next i out => char16Reads insz mem outsz fuel i out
        | _ => []
    else []

/-- The loop of the converter is the one with nothing behind its array. -/
theorem char16To8Loop_eq (inbuf : List Nat) (outsz fuel i : Nat) (out : Bytes) :
    char16To8Loop inbuf outsz fuel i out =
      char16To8LoopIn inbuf.length inbuf outsz fuel i out := by
  induction fuel generalizing i out with
  | zero => rfl
  | succ fuel ih =>
    rw [char16To8Loop, char16To8LoopIn, char16Turn]
    dsimp only
    repeat' split
    all_goals simp_all

/-- With nothing behind its array the converter is the one of the model. -/
theorem char16To8_eq (inbuf : List Nat) (outsz : Nat) :
    char16To8 inbuf outsz = char16To8In inbuf [] outsz := by
  rw [char16To8, char16To8Loop_eq, char16To8In, List.append_nil]

/-! ## Units that spell code points -/

/-- Units that are read as a sequence of code points, one unit or two for each. -/
inductive Spelled : List Nat → List Nat → Prop where
  | nil : Spelled [] []
  | cons {first us : List Nat} {cp : Nat} {cps : List Nat} (hfirst : Spells first cp)
    (hrest : Spelled us cps) : Spelled (first ++ us) (cp :: cps)

section
variable {cp outsz fuel : Nat} {first pre us post behind cps : List Nat} {c : Char}
  {text : List Char} {out : Bytes}

/-- The units of a text spell its characters. -/
theorem spelled_units (text : List Char) : Spelled (units text) (text.map Char.toNat) := by
  induction text with
  | nil => exact .nil
  | cons c text ih => exact .cons (spells_char c) ih

/-- What two lists of units spell they spell one behind the other. -/
theorem Spelled.append {us' cps' : List Nat} (h : Spelled us cps) (h' : Spelled us' cps') :
    Spelled (us ++ us') (cps ++ cps') := by
  induction h with
  | nil => exact h'
  | cons hfirst _ ih =>
    rw [List.append_assoc]
    exact .cons hfirst ih

/-- One code point more, spelled behind the others. -/
theorem Spelled.concat (h : Spelled us cps) (hfirst : Spells first cp) :
    Spelled (us ++ first) (cps ++ [cp]) := by
  have hall := h.append (.cons hfirst .nil)
  rwa [List.append_nil] at hall

/-- Code points that are spelled lie below 2²¹. -/
theorem Spelled.lt (h : Spelled us cps) : ∀ cp ∈ cps, cp < 2 ^ 21 := by
  induction h with
  | nil => exact fun cp hcp => (by cases hcp)
  | cons hfirst _ ih => exact List.forall_mem_cons.mpr ⟨hfirst.lt, ih⟩

/-- The UTF-8 form has a byte for each unit at least. -/
theorem Spells.length_le (h : Spells first cp) : first.length ≤ (utf8 cp).length := by
  cases h with
  | unit => exact List.length_pos_iff.mpr (utf8_ne_nil cp)
  | @pair h l | @swapped h l =>
    have hbig : 0x10000 ≤ surrogatePair h l := by
      unfold surrogatePair
      omega
    rw [utf8, if_neg (by omega), if_neg (by omega), if_neg (by omega)]
    simp

/-- Units never outnumber the UTF-8 bytes of what they spell. -/
theorem Spelled.length_le (h : Spelled us cps) : us.length ≤ (cps.flatMap utf8).length := by
  induction h with
  | nil => exact le_rfl
  | cons hfirst _ ih =>
    have := hfirst.length_le
    rw [List.flatMap_cons, List.length_append, List.length_append]
    omega

/-- A turn on units that spell a code point: which of the three it comes to is told by the two
indices and by the room. -/
theorem char16Turn_spells (h : Spells first cp) (outsz : Nat) (pre post : List Nat) (out : Bytes) :
    char16Turn (pre ++ (first ++ post)) outsz pre.length out =
      if intMax < pre.length + first.length then .overflow
      else if writeUtf8 cp outsz out.length = [] then .stop
      else if intMax < out.length + (writeUtf8 cp outsz out.length).length then .overflow
      else .next (pre ++ first).length (out ++ writeUtf8 cp outsz out.length) := by
  have hpos := h.length_pos
  rw [char16Turn, h.read]
  dsimp only
  rw [if_neg (by omega), List.length_append]

/-- **The two loops agree** on what units spell, unless an index of the first exceeds `INT_MAX`,
that of the units read or that of the bytes written. What stands before and behind the units does
not count. -/
theorem char16To8LoopIn_spelled (h : Spelled us cps) (outsz : Nat) (pre behind : List Nat)
    (out : Bytes) (hfuel : us.length ≤ fuel) :
    char16To8LoopIn (pre.length + us.length) (pre ++ (us ++ behind)) outsz fuel pre.length out =
        some (char32To8Loop outsz cps out) ∨
      char16To8LoopIn (pre.length + us.length) (pre ++ (us ++ behind)) outsz fuel pre.length out =
          none ∧
        (intMax < pre.length + us.length ∨
          intMax < (char32To8Loop outsz cps out).length) := by
  induction h generalizing pre out fuel with
  | nil =>
    refine .inl ?_
    cases fuel with
    | zero => rfl
    | succ fuel => rw [char16To8LoopIn, if_neg (by simp), char32To8Loop]
  | @cons first us cp cps hfirst hrest ih =>
    have hpos := hfirst.length_pos
    rw [List.length_append] at hfuel ⊢
    obtain ⟨fuel, rfl⟩ : ∃ n, fuel = n + 1 := ⟨fuel - 1, by omega⟩
    rw [List.append_assoc, char16To8LoopIn, char32To8Loop]
    rcases Nat.lt_or_ge out.length outsz with hroom | hfull
    · have hturn := char16Turn_spells hfirst outsz pre (us ++ behind) out
      rw [if_pos ⟨by omega, hroom⟩, if_pos hroom]
      dsimp only
      rcases Nat.lt_or_ge intMax (pre.length + first.length) with hover | hi
      · rw [if_pos hover] at hturn
        rw [hturn]
        exact .inr ⟨rfl, .inl (by omega)⟩
      rw [if_neg (Nat.not_lt.mpr hi)] at hturn
      rcases eq_or_ne (writeUtf8 cp outsz out.length) [] with hnil | hne
      · rw [if_pos hnil] at hturn ⊢
        rw [hturn]
        exact .inl rfl
      rw [if_neg hne] at hturn ⊢
      rcases Nat.lt_or_ge intMax (out.length + (writeUtf8 cp outsz out.length).length)
        with hover | hj
      · have hwritten := char32To8Loop_prefix outsz cps (out ++ writeUtf8 cp outsz out.length)
        have hle := hwritten.length_le
        rw [List.length_append] at hle
        rw [if_pos hover] at hturn
        rw [hturn]
        exact .inr ⟨rfl, .inr (by omega)⟩
      · rw [if_neg (Nat.not_lt.mpr hj)] at hturn
        rw [hturn, ← Nat.add_assoc, ← List.length_append, ← List.append_assoc]
        exact ih (pre ++ first) _ (by omega)
    · rw [if_neg (by omega), if_neg (by omega)]
      exact .inl rfl

/-- The whole call. -/
theorem char16To8In_spelled (h : Spelled us cps) (behind : List Nat) (outsz : Nat) :
    char16To8In us behind outsz = some (char32To8 cps outsz) ∨
      char16To8In us behind outsz = none ∧
        (intMax < us.length ∨ intMax < (char32To8 cps outsz).length) := by
  have hloop := char16To8LoopIn_spelled h outsz [] behind [] le_rfl
  rwa [List.length_nil, Nat.zero_add, List.nil_append] at hloop

/-- The UTF-8 bytes of a text are those of its characters. -/
theorem flatMap_utf8_text (text : List Char) :
    (text.map Char.toNat).flatMap utf8 = utf8Text text := by
  induction text with
  | nil => rfl
  | cons c text ih => rw [List.map_cons, List.flatMap_cons, ih, utf8Text_cons]

/-- A text has no more units than UTF-8 bytes. -/
theorem length_units_le (text : List Char) : (units text).length ≤ (utf8Text text).length := by
  have hle := (spelled_units text).length_le
  rwa [flatMap_utf8_text] at hle

/-- The units of a text, where the indices stay `int`s. -/
theorem char16To8_units (hi : (units text).length ≤ intMax)
    (hj : (char32To8 (text.map Char.toNat) outsz).length ≤ intMax) :
    char16To8 (units text) outsz = some (char32To8 (text.map Char.toNat) outsz) := by
  rw [char16To8_eq]
  rcases char16To8In_spelled (spelled_units text) [] outsz with hsome | ⟨-, hover⟩
  · exact hsome
  · omega

end

/-- **The two converters agree.** Where neither index of `C_Conv_char16_to_8` exceeds `INT_MAX`, it
writes on the units of a text what `C_Conv_char32_to_8` writes on the text, into any output block;
and they do not exceed it on a text whose units and bytes written are no more than that. -/
theorem char16To8_eq_char32To8 (text : List Char) (outsz : Nat) :
    (∀ out, char16To8 (units text) outsz = some out →
        out = char32To8 (text.map Char.toNat) outsz) ∧
      ((units text).length ≤ intMax →
        (char32To8 (text.map Char.toNat) outsz).length ≤ intMax →
        char16To8 (units text) outsz = some (char32To8 (text.map Char.toNat) outsz)) := by
  refine ⟨?_, char16To8_units⟩
  intro out hout
  rw [char16To8_eq] at hout
  rcases char16To8In_spelled (spelled_units text) [] outsz with hsome | ⟨hnone, -⟩
  · rw [hsome] at hout
    exact (Option.some.inj hout).symm
  · rw [hnone] at hout
    cases hout

/-- A supplementary character behind another, with room for the first only. Both write that one. -/
theorem char16To8_eq_char32To8_example :
    char16To8 (units ['é', '😀']) 6 = some (utf8Text ['é']) ∧
      char32To8 (['é', '😀'].map Char.toNat) 6 = utf8Text ['é'] := by
  have hi : (units ['é', '😀']).length ≤ intMax := by decide +kernel
  have hj : (char32To8 (['é', '😀'].map Char.toNat) 6).length ≤ intMax := by decide +kernel
  have hwritten : char32To8 (['é', '😀'].map Char.toNat) 6 = utf8Text ['é'] := by decide +kernel
  refine ⟨?_, hwritten⟩
  rw [← hwritten]
  exact (char16To8_eq_char32To8 ['é', '😀'] 6).2 hi hj

/-! ## Reading inside the array -/

/-- Whatever stands behind the array, the converter reads in it only, and does what it does with
nothing behind. -/
def UnitsInside (inbuf : List Nat) (outsz : Nat) : Prop :=
  ∀ behind, (∀ k ∈ char16Reads inbuf.length (inbuf ++ behind) outsz inbuf.length 0 [],
      k < inbuf.length) ∧
    char16To8In inbuf behind outsz = char16To8 inbuf outsz

/-- A surrogate ends the array, and the units in front of it are converted: they spell code points
for whose UTF-8 form there is room. -/
def LoneEnd (inbuf : List Nat) (outsz : Nat) : Prop :=
  ∃ pre u cps, inbuf = pre ++ [u] ∧ isSurrogate u = true ∧ Spelled pre cps ∧
    (cps.flatMap utf8).length < outsz ∧ (cps.flatMap utf8).length ≤ intMax

section
variable {cp outsz fuel insz : Nat} {first pre us post behind cps : List Nat} {out : Bytes}

/-- The front of some units spells a code point, or they are a surrogate alone, or there is none to
read and the units are at least two. -/
theorem units_cases (hne : us ≠ []) (hlt : ∀ u ∈ us, u < 0x10000) :
    (∃ first cp post, Spells first cp ∧ us = first ++ post) ∨
      (∃ u, us = [u] ∧ isSurrogate u = true) ∨
      (2 ≤ us.length ∧
        ∀ pre behind, (readUtf16 (pre ++ (us ++ behind)) pre.length) = (0, 0)) := by
  obtain ⟨u, us, rfl⟩ := List.exists_cons_of_ne_nil hne
  obtain ⟨hu, hlt⟩ := List.forall_mem_cons.mp hlt
  cases hsur : isSurrogate u with
  | false => exact .inl ⟨[u], u, us, .unit hu hsur, rfl⟩
  | true =>
    cases us with
    | nil => exact .inr (.inl ⟨u, rfl, hsur⟩)
    | cons v us =>
      cases hpair : isHighSurrogate u && isLowSurrogate v with
      | true =>
        obtain ⟨hh, hl⟩ := Bool.and_eq_true_iff.mp hpair
        exact .inl ⟨[u, v], surrogatePair u v, us, .pair hh hl, rfl⟩
      | false =>
        cases hswapped : isHighSurrogate v && isLowSurrogate u with
        | true =>
          obtain ⟨hh, hl⟩ := Bool.and_eq_true_iff.mp hswapped
          exact .inl ⟨[u, v], surrogatePair v u, us, .swapped hh hl, rfl⟩
        | false =>
          refine .inr (.inr ⟨by simp, fun pre behind => ?_⟩)
          rw [readUtf16_append]
          simp [hsur, hpair, hswapped]

/-- `read_utf16` reads the unit at its index and at most the next. -/
theorem readUtf16Reads_le (mem : List Nat) (i : Nat) : ∀ k ∈ readUtf16Reads mem i, k ≤ i + 1 := by
  intro k hk
  rw [readUtf16Reads] at hk
  split at hk <;> simp only [List.mem_cons, List.not_mem_nil, or_false] at hk <;> omega

/-- On units that spell a code point it reads these and none behind them. -/
theorem readUtf16Reads_spells (h : Spells first cp) (pre post : List Nat) :
    ∀ k ∈ readUtf16Reads (pre ++ (first ++ post)) pre.length, k < pre.length + first.length := by
  intro k hk
  cases h with
  | unit _ hu =>
    have hget : (pre ++ ([cp] ++ post)).getD pre.length 0 = cp := by
      rw [List.getD_append_right _ _ _ _ le_rfl, Nat.sub_self]
      rfl
    rw [readUtf16Reads, hget, if_neg (by simp [hu])] at hk
    rw [List.mem_singleton.mp hk]
    simp
  | pair | swapped =>
    have := readUtf16Reads_le _ _ k hk
    simp only [List.length_cons, List.length_nil]
    omega

/-- What is read behind units that are converted is read by the whole loop, which takes a turn for
each code point before. -/
theorem char16Reads_reach (h : Spelled us cps) (pre post : List Nat) (out : Bytes) (fuel : Nat)
    (hi : pre.length ≤ out.length) (hinsz : pre.length + us.length ≤ insz)
    (hroom : out.length + (cps.flatMap utf8).length < outsz)
    (hmax : out.length + (cps.flatMap utf8).length ≤ intMax) :
    ∀ k ∈ char16Reads insz (pre ++ (us ++ post)) outsz fuel (pre ++ us).length
        (out ++ cps.flatMap utf8),
      k ∈ char16Reads insz (pre ++ (us ++ post)) outsz (fuel + cps.length) pre.length out := by
  induction h generalizing pre out with
  | nil =>
    intro k hk
    rwa [List.append_nil, List.flatMap_nil, List.append_nil] at hk
  | @cons first us cp cps hfirst hrest ih =>
    intro k hk
    have hpos := hfirst.length_pos
    have hbytes := hfirst.length_le
    rw [List.length_append] at hinsz
    rw [List.flatMap_cons, List.length_append] at hroom hmax
    have hwrite : writeUtf8 cp outsz out.length = utf8 cp :=
      writeUtf8_room hfirst.lt (by omega)
    have hturn := char16Turn_spells hfirst outsz pre (us ++ post) out
    rw [if_neg (by omega), hwrite, if_neg (utf8_ne_nil cp), if_neg (by omega)] at hturn
    have hnext := ih (pre ++ first) (out ++ utf8 cp)
      (by simp only [List.length_append]; omega) (by simp only [List.length_append]; omega)
      (by simp only [List.length_append]; omega) (by simp only [List.length_append]; omega)
    rw [List.flatMap_cons, List.append_assoc first, ← List.append_assoc pre,
      ← List.append_assoc pre, ← List.append_assoc out] at hk
    rw [List.length_cons, ← Nat.add_assoc, List.append_assoc, char16Reads, if_pos (by omega),
      hturn, ← List.append_assoc pre first]
    exact List.mem_append_right _ (hnext k hk)

/-- Code points never outnumber their units. -/
theorem Spelled.length_cps_le (h : Spelled us cps) : cps.length ≤ us.length := by
  induction h with
  | nil => exact le_rfl
  | cons hfirst _ ih =>
    have := hfirst.length_pos
    rw [List.length_cons, List.length_append]
    omega

/-- A surrogate at the end that the loop gets to is followed by a read behind the array. The loop
gets to it behind the characters in front (`char16Reads_reach`), and reads the unit that the pair
would need. -/
theorem not_inside_of_loneEnd {inbuf : List Nat} (h : LoneEnd inbuf outsz) :
    ¬ UnitsInside inbuf outsz := by
  obtain ⟨us, u, cps, rfl, hu, hspelled, hroom, hmax⟩ := h
  intro hinside
  have hcps := hspelled.length_cps_le
  obtain ⟨fuel, hfuel⟩ : ∃ n, (us ++ [u]).length = n + 1 + cps.length :=
    ⟨us.length - cps.length, by rw [List.length_append, List.length_singleton]; omega⟩
  have hreach : ∀ k ∈ char16Reads (us ++ [u]).length (us ++ [u]) outsz (fuel + 1) us.length
      (cps.flatMap utf8),
      k ∈ char16Reads (us ++ [u]).length (us ++ [u]) outsz (fuel + 1 + cps.length) 0 [] :=
    char16Reads_reach hspelled [] [u] [] (fuel + 1) le_rfl (by simp) (by simpa using hroom)
      (by simpa using hmax)
  have hread : us.length + 1 ∈ char16Reads (us ++ [u]).length (us ++ [u]) outsz (fuel + 1)
      us.length (cps.flatMap utf8) := by
    have hget : (us ++ [u]).getD us.length 0 = u := by
      rw [List.getD_append_right _ _ _ _ le_rfl, Nat.sub_self]
      rfl
    rw [char16Reads, if_pos ⟨by simp, hroom⟩, readUtf16Reads, hget, if_pos hu]
    simp
  have hin := (hinside []).1
  rw [List.append_nil] at hin
  have hlt := hin (us.length + 1) (by
    have hmem := hreach _ hread
    rwa [← hfuel] at hmem)
  simp at hlt

/-- What a turn that goes on has read and written: the units of the code point at its place, and the
form of that code point. -/
theorem char16Turn_next {i : Nat} {out' : Bytes} (h : Spells first cp)
    (hturn : char16Turn (pre ++ (first ++ post)) outsz pre.length out = .next i out') :
    i = (pre ++ first).length ∧ out' = out ++ utf8 cp ∧ out'.length ≤ intMax := by
  rw [char16Turn_spells h] at hturn
  split at hturn
  · cases hturn
  split at hturn
  · cases hturn
  next hne =>
  rw [(writeUtf8_eq h.lt).resolve_right hne] at hturn
  split at hturn
  · cases hturn
  · next hmax =>
    cases hturn
    refine ⟨rfl, rfl, ?_⟩
    rw [List.length_append]
    omega

/-- **One turn** at a place up to which the units are converted. It stays in the array, and where it
goes on the units are converted up to the next place. By cases on what the units there spell: a
character, of which all units are in the array; a lone half at the end, which `hlone` rules out; or
nothing, where the loop stops. -/
theorem char16Turn_inside {inbuf : List Nat} (hlone : ¬ LoneEnd inbuf outsz)
    (pre behind : List Nat) (hlt : ∀ u ∈ inbuf, u < 0x10000) (hspelled : Spelled pre cps)
    (hin : inbuf = pre ++ us) (hout : out = cps.flatMap utf8) (hmax : out.length ≤ intMax)
    (hmore : pre.length < inbuf.length ∧ out.length < outsz) :
    (∀ k ∈ readUtf16Reads (inbuf ++ behind) pre.length, k < inbuf.length) ∧
      char16Turn (inbuf ++ behind) outsz pre.length out = char16Turn inbuf outsz pre.length out ∧
      ∀ i out', char16Turn inbuf outsz pre.length out = .next i out' → ∃ pre' us' cps',
        Spelled pre' cps' ∧ inbuf = pre' ++ us' ∧ i = pre'.length ∧ out' = cps'.flatMap utf8 ∧
          out'.length ≤ intMax := by
  have hlen : inbuf.length = pre.length + us.length := by rw [hin, List.length_append]
  have hne : us ≠ [] := List.ne_nil_of_length_pos (by omega)
  have hus : ∀ u ∈ us, u < 0x10000 := fun u hu =>
    hlt u (by rw [hin]; exact List.mem_append_right pre hu)
  rcases units_cases hne hus with ⟨first, cp, post, hfirst, rfl⟩ | ⟨u, rfl, hu⟩ | ⟨htwo, hread⟩
  · have hmem : inbuf ++ behind = pre ++ (first ++ (post ++ behind)) := by
      rw [hin, List.append_assoc, List.append_assoc]
    refine ⟨?_, ?_, ?_⟩
    · intro k hk
      rw [hmem] at hk
      have := readUtf16Reads_spells hfirst _ _ k hk
      rw [List.length_append] at hlen
      omega
    · rw [hmem, hin, char16Turn_spells hfirst, char16Turn_spells hfirst]
    · intro i out' hturn
      rw [hin] at hturn
      obtain ⟨hi, hout', hmax'⟩ := char16Turn_next hfirst hturn
      exact ⟨pre ++ first, post, cps ++ [cp], hspelled.concat hfirst,
        by rw [hin, List.append_assoc], hi, by rw [hout', hout]; simp, hmax'⟩
  · exact absurd ⟨pre, u, cps, hin, hu, hspelled, hout ▸ hmore.2, hout ▸ hmax⟩ hlone
  · -- two units are there and spell nothing, so the loop stops
    have hstop (mem : List Nat) (hmem : readUtf16 mem pre.length = (0, 0)) :
        char16Turn mem outsz pre.length out = .stop := by
      rw [char16Turn, hmem]
      rfl
    have hbehind : char16Turn (inbuf ++ behind) outsz pre.length out = .stop :=
      hstop _ (by rw [hin, List.append_assoc]; exact hread pre behind)
    have hnothing : char16Turn inbuf outsz pre.length out = .stop :=
      hstop _ (by simpa [hin] using hread pre [])
    refine ⟨fun k hk => ?_, hbehind.trans hnothing.symm, ?_⟩
    · have := readUtf16Reads_le _ _ k hk
      omega
    · intro i out' hturn
      rw [hnothing] at hturn
      cases hturn

/-- One turn after the other, as long as the units are converted: all reads are inside the array,
and what lies behind it changes nothing. `pre` are the units that were read. -/
theorem inside_of_not_loneEnd {inbuf : List Nat} (hlone : ¬ LoneEnd inbuf outsz) (pre : List Nat)
    (hlt : ∀ u ∈ inbuf, u < 0x10000) (hspelled : Spelled pre cps) (hin : inbuf = pre ++ us)
    (hout : out = cps.flatMap utf8) (hmax : out.length ≤ intMax) :
    (∀ k ∈ char16Reads inbuf.length (inbuf ++ behind) outsz fuel pre.length out,
        k < inbuf.length) ∧
      char16To8LoopIn inbuf.length (inbuf ++ behind) outsz fuel pre.length out =
        char16To8LoopIn inbuf.length inbuf outsz fuel pre.length out := by
  induction fuel generalizing pre us cps out with
  | zero => exact ⟨fun k hk => (by cases hk), rfl⟩
  | succ fuel ih =>
    rw [char16Reads, char16To8LoopIn, char16To8LoopIn]
    split
    · next hmore =>
      obtain ⟨hreads, hsame, hgoes⟩ :=
        char16Turn_inside hlone pre behind hlt hspelled hin hout hmax hmore
      rw [hsame]
      cases hturn : char16Turn inbuf outsz pre.length out with
      | stop | overflow => exact ⟨fun k hk => hreads k (by simpa using hk), rfl⟩
      | next i out' =>
        obtain ⟨pre', us', cps', hspelled', hin', rfl, hout', hmax'⟩ := hgoes i out' hturn
        have hnext := ih pre' hspelled' hin' hout' hmax'
        exact ⟨fun k hk => (List.mem_append.mp hk).elim (hreads k) (hnext.1 k), hnext.2⟩
    · exact ⟨fun k hk => (by cases hk), rfl⟩

end

/-- **When the array is not left.** For all units and every `outsz`, the converter reads inside its
array, and its result does not depend on what stands behind, iff the array does not end with a
surrogate that the loop gets to. Behind a surrogate the unit after it is read without a look at the
size of the array. -/
theorem units_inside_iff (inbuf : List UInt16) (outsz : Nat) :
    UnitsInside (inbuf.map UInt16.toNat) outsz ↔ ¬ LoneEnd (inbuf.map UInt16.toNat) outsz := by
  constructor
  · exact fun hinside hlone => not_inside_of_loneEnd hlone hinside
  · intro hlone behind
    have hlt : ∀ u ∈ inbuf.map UInt16.toNat, u < 0x10000 := by
      intro u hu
      obtain ⟨w, -, rfl⟩ := List.mem_map.mp hu
      exact w.toNat_lt
    rw [char16To8_eq, char16To8In, char16To8In, List.append_nil]
    exact inside_of_not_loneEnd hlone [] hlt .nil rfl rfl (Nat.zero_le _)

/-- A high surrogate alone: what stands behind the array decides whether a character is written. -/
theorem units_outside :
    char16Reads 1 [0xD83D, 0xDE00] 8 1 0 [] = [0, 1] ∧
      char16To8In [0xD83D] [0xDE00] 8 = some (utf8Text ['😀']) ∧
      char16To8In [0xD83D] [0x0041] 8 = some [] ∧
      ¬ UnitsInside ([0xD83D].map UInt16.toNat) 8 := by
  have hlone : LoneEnd ([0xD83D].map UInt16.toNat) 8 :=
    ⟨[], 0xD83D, [], rfl, rfl, .nil, Nat.succ_pos 7, Nat.zero_le _⟩
  refine ⟨by decide +kernel, by decide +kernel, by decide +kernel, not_inside_of_loneEnd hlone⟩

end Eltn
