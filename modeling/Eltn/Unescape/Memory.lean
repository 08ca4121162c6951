import Eltn.Lib.Blocks
import Eltn.Strtol
import Eltn.Unescape

/-!
# The memory of the unescaper

`ELTN_unescape_quoted_string` on its two blocks: the literal with the terminator behind it, and the
output block of as many bytes as the literal has. In `Guarded` a read or a store outside these has
no result, nor has a loop that does not end, nor a call of `strtol` or `strchr` on a pointer behind
which no terminator is left. Every literal has a result (`unescape_guarded`): the bytes stored are
never more than the bytes passed over, and an escape that ends the literal has its backslash to
spare.
-/

namespace Eltn

namespace Guarded

/-! ## The guarded functions -/

/-- The output block and the number of bytes stored in it, which is where the next one goes. -/
structure Output where
  bufptr : Bytes
  buflen : Nat
deriving DecidableEq, Repr

/-- `bufptr[buflen] = b` and `buflen++`. -/
def Output.push (b : UInt8) (o : Output) : Option Output :=
  (Blocks.store b o.buflen o.bufptr).map fun bufptr => ⟨bufptr, o.buflen + 1⟩

/-- Bytes stored at `bufptr + buflen`, and `buflen` increased by their number. -/
def Output.pushAll (bs : Bytes) (o : Output) : Option Output :=
  (Blocks.storeAll bs o.buflen o.bufptr).map fun bufptr => ⟨bufptr, o.buflen + bs.length⟩

/-- `*index`. -/
def load (index : Bytes) : Option UInt8 := index.head?

/-- The string that a library function is called with: it is terminated in the block. -/
def cstring (index : Bytes) : Option Bytes := if 0 ∈ index then some index else none

/-- The digits that `append_octal` reads, up to `n` of them, each loaded before it is looked at. -/
def octalDigits : Nat → Bytes → Option Bytes
  | 0, _ => some []
  | n + 1, index => do
    let c ← load index
    if isOctdigit c then (octalDigits n index.tail).map (c :: ·) else some []

/-- `append_octal`, with a result where its reads are inside the literal and its store inside the
block. -/
def appendOctal (index : Bytes) (o : Output) : Option (Bytes × Output) := do
  let ds ← octalDigits 3 index
  let o ← o.push (strtol 8 ds % 256).toNat.toUInt8
  some (index.drop ds.length, o)

/-- `append_hex`: the second digit is read only behind a first one. -/
def appendHex (index : Bytes) (o : Output) : Option (Bytes × Output) := do
  let a ← load index
  if !isHexdigit a then some (index, o)
  else
    let b ← load index.tail
    if !isHexdigit b then some (index, o)
    else
      let o ← o.push (strtol 16 [a, b] % 256).toNat.toUInt8
      some (index.drop 2, o)

/-- `append_unicode`: `strchr` and `strtol` read up to the terminator, which must be there, and all
bytes of the code point are stored. -/
def appendUnicode (index : Bytes) (o : Output) : Option (Bytes × Output) := do
  let instr ← cstring index
  let c ← load index
  match strchr instr 0x7D with
  | none => some (index, o)
  | some closebracket =>
    if c ≠ 0x7B then some (index, o)
    else
      let digits ← cstring index.tail
      let cp := (strtol 16 digits % 2 ^ 32).toNat
      let o ← o.pushAll (codepointToChar8 cp o.buflen)
      some (closebracket.tail, o)

/-- The loop of the escape `\z`. -/
def skipSpace : Bytes → Option Bytes
  | [] => none
  | c :: s => if isSpace c then skipSpace s else some (c :: s)

/-- The `switch` of `ELTN_unescape_quoted_string`, with a result where each of its reads and stores
is inside its block. -/
def unescapeSwitch (index : Bytes) (o : Output) : Option (Bytes × Output) := do
  let c ← load index
  if c = 0x0A then (o.push 0x0A).map fun o => (index.tail, o)
  else if c = 0x0D then
    let o ← o.push 0x0A
    let d ← load index.tail
    some (if d = 0x0A then index.tail.tail else index.tail, o)
  else match letterEscape c with
    | some b => (o.push b).map fun o => (index.tail, o)
    | none =>
      if c = 0x78 then appendHex index.tail o
      else if c = 0x75 then appendUnicode index.tail o
      else if c = 0x7A then (skipSpace index.tail).map fun index => (index, o)
      else if isOctdigit c then appendOctal index o
      else (o.push c).map fun o => (index.tail, o)

/-- One turn of the loop of `ELTN_unescape_quoted_string`. -/
def unescapeStep (index : Bytes) (o : Output) : Option (Bytes × Output) := do
  let c ← load index
  if c ≠ 0x5C then (o.push c).map fun o => (index.tail, o) else unescapeSwitch index.tail o

/-- The loop of `ELTN_unescape_quoted_string`, without a result where its turns run out. -/
def unescapeLoop (quotechar : UInt8) : Nat → Bytes → Output → Option (Bytes × Output)
  | 0, _, _ => none
  | fuel + 1, index, o =>
    if 1 < index.length then do
      let c ← load index
      if c ≠ quotechar then
        let turn ← unescapeStep index o
        unescapeLoop quotechar fuel turn.1 turn.2
      else some (index, o)
    else some (index, o)

/-- `ELTN_unescape_quoted_string`, when its allocation succeeds. The block is cleared, and as long
as the literal. -/
def unescapeQuotedString (instr : Bytes) : Option Output := do
  let index := instr ++ [0]
  let c ← load index
  let o : Output := ⟨List.replicate instr.length 0, 0⟩
  if c = 0x27 ∨ c = 0x22 then
    (unescapeLoop c (instr.length + 1) index.tail o).map Prod.snd
  else (unescapeLoop 0 (instr.length + 1) index o).map Prod.snd

/-! ## Room -/

/-- The output block of `n` bytes with what is stored in it. -/
def filled (n : Nat) (out : Bytes) : Output :=
  ⟨out ++ List.replicate (n - out.length) 0, out.length⟩

/-- The pointer is in the literal, at its terminator or one behind, and for each byte that is left
there is room in the output. -/
structure Inside (n : Nat) (index out : Bytes) : Prop where
  terminated : index = [] ∨ ∃ s, index = s ++ [0]
  room : out.length + (index.length - 1) ≤ n

/-- A guarded call does what the function does, moves the pointer to one of the last `len` bytes or
behind them, and leaves it inside. -/
structure Does (n len : Nat) (call : Option (Bytes × Output)) (result : Bytes × Bytes) : Prop where
  eq : call = some (result.1, filled n result.2)
  moves : result.1.length ≤ len
  inside : Inside n result.1 result.2

section
variable {n : Nat} {b c : UInt8} {s w t index out written : Bytes}

/-- Bytes for which there is room are stored behind those that are there. The rest of the block
stays clear. -/
theorem pushAll_filled (h : out.length + written.length ≤ n) :
    (filled n out).pushAll written = some (filled n (out ++ written)) := by
  have hroom : written.length ≤ (List.replicate (n - out.length) (0 : UInt8)).length := by
    rw [List.length_replicate]
    omega
  have hleft : n - out.length - written.length = n - (out ++ written).length := by
    rw [List.length_append]
    omega
  rw [Output.pushAll, filled, Blocks.storeAll_room out hroom, Option.map_some,
    List.drop_replicate, hleft, filled, List.length_append]

/-- So is one byte. -/
theorem push_filled (h : out.length < n) (b : UInt8) :
    (filled n out).push b = some (filled n (out ++ [b])) := by
  have hone : out.length + [b].length ≤ n := h
  rw [← pushAll_filled hone, Output.push, Output.pushAll, Blocks.storeAll]
  cases Blocks.store b (filled n out).buflen (filled n out).bufptr with
  | none => rfl
  | some bufptr => rfl

/-- The terminator is in every string that ends with it. -/
theorem cstring_append (s : Bytes) : cstring (s ++ [0]) = some (s ++ [0]) := by
  rw [cstring, if_pos (by simp)]

/-- A pointer into a literal, with its terminator behind it, is inside if every byte left has room
in the output. -/
theorem inside_append (h : out.length + s.length ≤ n) : Inside n (s ++ [0]) out :=
  ⟨.inr ⟨s, rfl⟩, by simpa using h⟩

/-! ## The escapes -/

/-- One byte is stored and the pointer moves to `t`. -/
theorem does_push (b : UInt8) (ht : t = [] ∨ ∃ s, t = s ++ [0])
    (hroom : out.length + 1 + (t.length - 1) ≤ n) :
    Does n t.length (((filled n out).push b).map fun o => (t, o)) (t, out ++ [b]) where
  eq := by rw [push_filled (by omega), Option.map_some]
  moves := le_rfl
  inside := ⟨ht, by rw [List.length_append, List.length_singleton]; exact hroom⟩

/-- Nothing is stored. -/
theorem does_nothing (hroom : out.length + s.length ≤ n) :
    Does n (s ++ [0]).length (some (s ++ [0], filled n out)) (s ++ [0], out) :=
  ⟨rfl, le_rfl, inside_append hroom⟩

/-- Bytes are stored and the pointer moves to `s`. -/
theorem does_append (len : Nat) (hlen : s.length < len)
    (hroom : out.length + written.length + s.length ≤ n) :
    Does n len (some (s ++ [0], filled n (out ++ written))) (s ++ [0], out ++ written) where
  eq := rfl
  moves := by rwa [List.length_append]
  inside := inside_append (by rwa [List.length_append])

/-- The first byte that is no octal digit is in the string, be it the terminator, so that no read is
outside. -/
theorem octalDigits_eq (k : Nat) (s : Bytes) :
    octalDigits k (s ++ [0]) = some (((s ++ [0]).take k).takeWhile isOctdigit) := by
  induction k generalizing s with
  | zero => rfl
  | succ k ih =>
    cases s with
    | nil => simp [octalDigits, load, isOctdigit]
    | cons c s =>
      rw [octalDigits, List.cons_append, List.take_succ_cons, List.takeWhile_cons,
        List.tail_cons, ih]
      simp only [load, List.head?_cons, Option.bind_eq_bind, Option.bind_some, Option.map_some]
      split <;> rfl

/-- The guarded `append_octal` reads digits inside the literal and stores one byte. -/
theorem appendOctal_does (hc : isOctdigit c = true) (hroom : out.length + s.length + 1 ≤ n) :
    Does n (c :: (s ++ [0])).length (appendOctal (c :: (s ++ [0])) (filled n out))
      (Eltn.appendOctal (c :: (s ++ [0])) out) := by
  obtain ⟨w, rest, rfl, -, hskip⟩ := appendOctal_skip (q := 0) rfl hc s [] out
  rw [Eltn.appendOctal] at hskip ⊢
  dsimp only at hskip
  rw [appendOctal, ← List.cons_append, octalDigits_eq, Option.bind_eq_bind, Option.bind_some,
    List.cons_append, push_filled (by omega), Option.bind_eq_bind, Option.bind_some, hskip]
  rw [List.length_append] at hroom
  refine does_append _ ?_ ?_
  · simp only [List.length_cons, List.length_append]
    omega
  · rw [List.length_singleton]
    omega

/-- The guarded `append_hex` reads two bytes at least, the terminator among them if the literal ends
there. -/
theorem appendHex_does (hroom : out.length + s.length ≤ n) :
    Does n (s ++ [0]).length (appendHex (s ++ [0]) (filled n out))
      (Eltn.appendHex (s ++ [0]) out) := by
  have hnone : Does n (s ++ [0]).length (some (s ++ [0], filled n out)) (s ++ [0], out) :=
    does_nothing hroom
  rcases s with _ | ⟨a, s⟩
  · exact hnone
  rcases ha : isHexdigit a with _ | _
  · simpa [appendHex, Eltn.appendHex, load, ha] using hnone
  rcases s with _ | ⟨b, s⟩
  · have hend : isHexdigit 0 = false := rfl
    simpa [appendHex, Eltn.appendHex, load, ha, hend] using hnone
  rcases hb : isHexdigit b with _ | _
  · simpa [appendHex, Eltn.appendHex, load, ha, hb] using hnone
  have hpush : (filled n out).push (strtol 16 [a, b] % 256).toNat.toUInt8 =
      some (filled n (out ++ [(strtol 16 [a, b] % 256).toNat.toUInt8])) :=
    push_filled (by simp only [List.length_cons] at hroom; omega) _
  have hcall : appendHex (a :: b :: s ++ [0]) (filled n out) =
      some (s ++ [0], filled n (out ++ [(strtol 16 [a, b] % 256).toNat.toUInt8])) := by
    simp [appendHex, load, ha, hb, hpush]
  have hresult : Eltn.appendHex (a :: b :: s ++ [0]) out =
      (s ++ [0], out ++ [(strtol 16 [a, b] % 256).toNat.toUInt8]) := by
    simp [Eltn.appendHex, ha, hb]
  rw [hcall, hresult]
  refine does_append _ ?_ ?_
  · simp only [List.length_cons, List.length_append]
    omega
  · simp only [List.length_cons, List.length_nil] at hroom ⊢
    omega

/-- No form is longer than six bytes. -/
theorem writeUtf8_length (cp outsz j : Nat) : (writeUtf8 cp outsz j).length ≤ 6 := by
  unfold writeUtf8
  repeat' split
  all_goals simp

/-- The value in front of the closing brace has a form of at most four bytes more than the brace
has in front: the longest form takes six bytes, and one digit, signed or not, takes one byte or is
refused. -/
theorem codepointToChar8_length (w r : Bytes) (outsz : Nat) :
    (codepointToChar8 (strtol 16 (w ++ 0x7D :: r) % 2 ^ 32).toNat outsz).length ≤
      w.length + 4 := by
  rcases Nat.lt_or_ge 1 w.length with hlong | hshort
  · have := writeUtf8_length (strtol 16 (w ++ 0x7D :: r) % 2 ^ 32).toNat outsz 0
    rw [codepointToChar8]
    omega
  · have hends : EndsNumber 0x7D := ⟨rfl, rfl, by decide, by decide, by decide, by decide⟩
    obtain ⟨hlo, hhi⟩ := strtol_lt hends w r
    have hpow : (16 : Int) ^ w.length ≤ 16 := by
      have : 16 ^ w.length ≤ 16 ^ 1 := Nat.pow_le_pow_right (by decide) hshort
      exact_mod_cast this
    generalize strtol 16 (w ++ 0x7D :: r) = v at hlo hhi ⊢
    rcases Int.lt_or_le v 0 with hneg | hnonneg
    · have hcp : 0x7FFFFF < (v % 2 ^ 32).toNat := by omega
      generalize (v % 2 ^ 32).toNat = cp at hcp
      have hrefused : codepointToChar8 cp outsz = [] := by
        rw [codepointToChar8, writeUtf8]
        repeat rw [if_neg (by omega)]
      rw [hrefused]
      exact Nat.zero_le _
    · have hcp : (v % 2 ^ 32).toNat ≤ 0x7F := by omega
      rw [codepointToChar8, writeUtf8, if_pos hcp, List.length_singleton]
      omega

/-- The guarded `append_unicode` finds its closing brace before the terminator or none; what the
encoder stores is no longer than the escape. For that the four bytes of an escape that are not
digits have to be counted (`codepointToChar8_length`). -/
theorem appendUnicode_does (hroom : out.length + s.length + 2 ≤ n) :
    Does n (s ++ [0]).length (appendUnicode (s ++ [0]) (filled n out))
      (Eltn.appendUnicode (s ++ [0]) out) := by
  have hnone : Does n (s ++ [0]).length (some (s ++ [0], filled n out)) (s ++ [0], out) :=
    does_nothing (by omega)
  obtain ⟨c, t, hcons⟩ : ∃ c t, s ++ [0] = c :: t := List.exists_cons_of_ne_nil (by simp)
  have hload : load (s ++ [0]) = some c := by rw [hcons]; rfl
  have hhead : (s ++ [0]).headD 0 = c := by rw [hcons]; rfl
  have hstr : strchr (s ++ [0]) 0x7D = (strchr s 0x7D).map (· ++ [0]) :=
    strchr_append_zero (by decide) s
  rcases hclose : strchr s 0x7D with _ | close
  · rw [hclose, Option.map_none] at hstr
    simpa [appendUnicode, Eltn.appendUnicode, cstring_append, hload, hstr] using hnone
  rw [hclose, Option.map_some] at hstr
  rcases eq_or_ne c 0x7B with rfl | hc
  · obtain ⟨w, r, rfl, rfl⟩ := strchr_eq_some hclose
    rcases w with _ | ⟨b, w⟩
    · cases (List.cons.inj hcons).1
    obtain rfl : b = 0x7B := (List.cons.inj hcons).1
    have htail : (0x7B :: w ++ 0x7D :: r ++ [0]).tail = w ++ 0x7D :: r ++ [0] := rfl
    have hlen := codepointToChar8_length w (r ++ [0]) out.length
    rw [← List.cons_append, ← List.append_assoc] at hlen
    simp only [List.length_cons, List.length_append] at hroom
    simp only [appendUnicode, Eltn.appendUnicode, cstring_append, hload, hhead, hstr, htail,
      Option.bind_eq_bind, Option.bind_some, ne_eq, not_true_eq_false, if_false]
    generalize codepointToChar8 (strtol 16 (w ++ 0x7D :: r ++ [0]) % 2 ^ 32).toNat = written
      at hlen ⊢
    show Does n _ (((filled n out).pushAll (written out.length)).bind _) _
    rw [pushAll_filled (by omega), Option.bind_some]
    refine does_append _ ?_ ?_
    · simp only [List.length_cons, List.length_append]
      omega
    · omega
  · simp only [appendUnicode, Eltn.appendUnicode, cstring_append, hload, hhead, hstr,
      Option.bind_eq_bind, Option.bind_some, ne_eq, hc, not_false_eq_true, if_true]
    exact hnone

/-- The loop of `\z` stops at the terminator. -/
theorem skipSpace_eq (s : Bytes) :
    skipSpace (s ++ [0]) = some (s.dropWhile isSpace ++ [0]) := by
  induction s with
  | nil => rfl
  | cons c s ih =>
    rw [List.cons_append, skipSpace, List.dropWhile_cons]
    split
    · exact ih
    · rfl

/-! ## The scan -/

/-- A call that leaves one of the last bytes leaves one of more last bytes. -/
theorem Does.mono {len len' : Nat} {call : Option (Bytes × Output)} {result : Bytes × Bytes}
    (h : Does n len call result) (hle : len ≤ len') : Does n len' call result :=
  ⟨h.eq, h.moves.trans hle, h.inside⟩

/-- **One escape**, behind its backslash. An escape that stores a byte for a terminator has the
backslash to spare. By the cases of the `switch`, with the lemma of each escape that reads more than
its letter. -/
theorem unescapeSwitch_does (hroom : out.length + s.length + 1 ≤ n) :
    Does n (s ++ [0]).length (unescapeSwitch (s ++ [0]) (filled n out))
      (Eltn.unescapeSwitch (s ++ [0]) out) := by
  rcases s with _ | ⟨c, s⟩
  · exact (does_push 0 (.inl rfl) (by simpa using hroom)).mono (Nat.zero_le _)
  rw [List.length_cons] at hroom
  have hlen : (s ++ [0]).length ≤ (c :: s ++ [0]).length := Nat.le_succ _
  have hpush : ∀ b, Does n (c :: s ++ [0]).length
      (((filled n out).push b).map fun o => (s ++ [0], o)) (s ++ [0], out ++ [b]) := by
    intro b
    refine (does_push b (.inr ⟨s, rfl⟩) ?_).mono hlen
    rw [List.length_append, List.length_singleton]
    omega
  rw [List.cons_append, Eltn.unescapeSwitch_cons]
  simp only [unescapeSwitch, load, List.head?_cons, List.tail_cons, Option.bind_eq_bind,
    Option.bind_some]
  split
  · exact hpush 0x0A
  split
  · rw [push_filled (by omega), Option.bind_some]
    rcases s with _ | ⟨d, s⟩
    · exact does_append (s := []) _ (Nat.succ_pos _) (Nat.le_of_succ_le hroom)
    -- a newline behind the carriage return goes with it
    rcases eq_or_ne d 0x0A with rfl | hd
    · refine does_append _ ?_ ?_
      · simp only [List.length_cons, List.length_append]
        omega
      · simp only [List.length_cons, List.length_nil] at hroom ⊢
        omega
    · simp only [List.cons_append, List.head?_cons, Option.bind_some, List.headD_cons, hd, if_false]
      refine does_append (s := d :: s) _ (Nat.lt_succ_of_lt ?_) ?_
      · simp only [List.length_cons, List.length_append]
        omega
      · simp only [List.length_cons, List.length_nil] at hroom ⊢
        omega
  rcases letterEscape c with _ | b
  · dsimp only
    split
    · exact (appendHex_does (by omega)).mono hlen
    split
    · exact (appendUnicode_does (by omega)).mono hlen
    split
    · rw [skipSpace_eq, Option.map_some, dropWhile_literal rfl s []]
      have hdrop : (s.dropWhile isSpace).length ≤ s.length :=
        (List.dropWhile_sublist isSpace).length_le
      refine (does_nothing (by omega)).mono ?_
      simp only [List.length_append, List.length_cons]
      omega
    split
    · next hc => exact appendOctal_does hc (by omega)
    · exact hpush c
  · exact hpush b

/-- **One turn** of the loop reads and stores inside its blocks, does what the plain turn does, and
moves the pointer. -/
theorem unescapeStep_does (h : Inside n index out) (hmore : 1 < index.length) :
    Does n (index.length - 1) (unescapeStep index (filled n out))
      (Eltn.unescapeStep index out) := by
  obtain ⟨rfl | ⟨s, rfl⟩, hroom⟩ := h
  · cases hmore
  rcases s with _ | ⟨c, s⟩
  · exact absurd hmore (lt_irrefl 1)
  have hcall : unescapeStep (c :: s ++ [0]) (filled n out) =
      if c ≠ 0x5C then ((filled n out).push c).map fun o => (s ++ [0], o)
      else unescapeSwitch (s ++ [0]) (filled n out) := rfl
  have hresult : Eltn.unescapeStep (c :: s ++ [0]) out =
      if c ≠ 0x5C then (s ++ [0], out ++ [c]) else Eltn.unescapeSwitch (s ++ [0]) out := rfl
  have hlen : (c :: s ++ [0]).length - 1 = (s ++ [0]).length := rfl
  simp only [List.length_cons, List.length_append, List.length_nil] at hroom
  rw [hlen, hcall, hresult]
  split
  · refine does_push c (.inr ⟨s, rfl⟩) ?_
    rw [List.length_append, List.length_singleton]
    omega
  · exact unescapeSwitch_does (by omega)

/-- **The loop**: as many turns are enough as the pointer has bytes, and all of them do what the
plain loop does. -/
theorem unescapeLoop_eq (q : UInt8) (fuel : Nat) (h : Inside n index out)
    (hfuel : index.length ≤ fuel + 1) :
    unescapeLoop q (fuel + 1) index (filled n out) =
        some ((Eltn.unescapeLoop q fuel index out).1,
          filled n (Eltn.unescapeLoop q fuel index out).2) ∧
      Inside n (Eltn.unescapeLoop q fuel index out).1 (Eltn.unescapeLoop q fuel index out).2 := by
  induction fuel generalizing index out with
  | zero =>
    rw [unescapeLoop, if_neg (Nat.not_lt.mpr hfuel)]
    exact ⟨rfl, h⟩
  | succ fuel ih =>
    rw [unescapeLoop, Eltn.unescapeLoop]
    rcases Nat.lt_or_ge 1 index.length with hmore | hend
    · obtain ⟨c, hload, hhead⟩ : ∃ c, load index = some c ∧ index.headD 0 = c := by
        obtain ⟨c, s, rfl⟩ := List.exists_cons_of_length_pos (Nat.lt_of_succ_lt hmore)
        exact ⟨c, rfl, rfl⟩
      rw [if_pos hmore, hload, Option.bind_eq_bind, Option.bind_some, hhead]
      rcases eq_or_ne c q with rfl | hc
      · rw [if_neg (not_not_intro rfl), if_neg fun h => h.2 rfl]
        exact ⟨rfl, h⟩
      · have hturn := unescapeStep_does h hmore
        rw [if_pos hc, hturn.eq, Option.bind_eq_bind, Option.bind_some, if_pos ⟨hmore, hc⟩]
        exact ih hturn.inside (hturn.moves.trans (by omega))
    · rw [if_neg (Nat.not_lt.mpr hend), if_neg fun h => absurd h.1 (Nat.not_lt.mpr hend)]
      exact ⟨rfl, h⟩

/-- One byte further on the pointer is still inside, for the output has not grown. -/
theorem inside_tail (h : Inside n index out) : Inside n index.tail out := by
  obtain ⟨rfl | ⟨s, rfl⟩, hroom⟩ := h
  · exact ⟨.inl rfl, hroom⟩
  rcases s with _ | ⟨c, s⟩
  · exact ⟨.inl rfl, hroom⟩
  · refine ⟨.inr ⟨s, rfl⟩, le_trans ?_ hroom⟩
    simp only [List.cons_append, List.tail_cons, List.length_cons]
    omega

end

/-- The unescaper fills a block of the size of the literal from the start, with no more bytes than
it has. -/
theorem unescapeQuotedString_filled (instr : Bytes) :
    unescapeQuotedString instr =
        some (filled instr.length (Eltn.unescapeQuotedString instr).2) ∧
      (Eltn.unescapeQuotedString instr).2.length ≤ instr.length := by
  have hstart : Inside instr.length (instr ++ [0]) [] := inside_append (by simp)
  have hloop (q : UInt8) {index : Bytes} (h : Inside instr.length index [])
      (hlen : index.length ≤ instr.length + 1) :
      (unescapeLoop q (instr.length + 1) index (filled instr.length [])).map Prod.snd =
          some (filled instr.length (Eltn.unescapeLoop q instr.length index []).2) ∧
        (Eltn.unescapeLoop q instr.length index []).2.length ≤ instr.length := by
    obtain ⟨heq, hinside⟩ := unescapeLoop_eq q instr.length h hlen
    exact ⟨by rw [heq, Option.map_some], (Nat.le_add_right _ _).trans hinside.room⟩
  have hload : load (instr ++ [0]) = some (instr.headD 0) := by cases instr <;> rfl
  rw [unescapeQuotedString, hload, Option.bind_eq_bind, Option.bind_some, Eltn.unescapeQuotedString]
  dsimp only
  split
  · exact hloop _ (inside_tail hstart) (by simp)
  · exact hloop 0 hstart (by simp)

/-- **The unescaper stays in its blocks and ends.** On any bytes, with their terminator behind them,
no read and no store is outside, and no more bytes are stored than the literal has. -/
theorem unescape_guarded (instr : Bytes) : ∃ o,
    unescapeQuotedString instr = some o ∧ o.bufptr.length = instr.length ∧
      o.buflen ≤ instr.length ∧
      o.bufptr.take o.buflen = (Eltn.unescapeQuotedString instr).2 := by
  obtain ⟨heq, hroom⟩ := unescapeQuotedString_filled instr
  refine ⟨_, heq, ?_, hroom, List.take_left⟩
  rw [filled, List.length_append, List.length_replicate]
  omega

end Guarded

end Eltn
