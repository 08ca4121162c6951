import Eltn.EString
import Mathlib.Data.List.TakeWhile
import Mathlib.Tactic.Common

/-!
# The scan of the unescaper

How far one escape moves the pointer of `ELTN_unescape_quoted_string`, on a literal that ends in its
quote `q`: an escape that is not a closed `\u{...}` skips the byte after the backslash and then
bytes that are neither backslashes nor the quote (`unescapeSwitch_skip`), and a closed one skips to
after its brace (`unescapeSwitch_unicode`). So the scan never jumps over the end of the literal.
-/

namespace Eltn

/-! ## `strchr` -/

/-- A found string starts with the byte looked for. -/
theorem strchr_eq_some {s t : Bytes} {c : UInt8} (h : strchr s c = some t) :
    ∃ w r, s = w ++ c :: r ∧ t = c :: r := by
  induction s with
  | nil => cases h
  | cons x s ih =>
    rw [strchr] at h
    split at h
    · next hx => cases h; subst hx; exact ⟨[], s, rfl, rfl⟩
    split at h
    · cases h
    · obtain ⟨w, r, rfl, ht⟩ := ih h
      exact ⟨x :: w, r, rfl, ht⟩

/-- The terminator changes nothing. -/
theorem strchr_append_zero {c : UInt8} (hc : c ≠ 0) (s : Bytes) :
    strchr (s ++ [0]) c = (strchr s c).map (· ++ [0]) := by
  induction s with
  | nil => simp [strchr, hc.symm]
  | cons x s ih =>
    rw [List.cons_append, strchr, strchr]
    split
    · rfl
    split
    · rfl
    · exact ih

/-! ## One escape -/

/-- The text after the backslash `d :: s` is a `\u` escape with its braces. -/
def ClosedUnicode (d : UInt8) (s : Bytes) : Prop :=
  d = 0x75 ∧ s.head? = some 0x7B ∧ (strchr s 0x7D).isSome

section
variable {q d : UInt8} {body out : Bytes}

/-- The closing brace is looked for up to the terminator, which is no brace, so it is found in the
literal or not at all. -/
theorem strchr_literal (q : UInt8) (body : Bytes) :
    strchr (body ++ [q, 0]) 0x7D = (strchr (body ++ [q]) 0x7D).map (· ++ [0]) := by
  rw [← strchr_append_zero (by simp), List.append_assoc]
  rfl

/-- Skipping a class of bytes the quote is not in stops before the quote. -/
theorem dropWhile_literal {p : UInt8 → Bool} (hq : p q = false) (body r : Bytes) :
    (body ++ q :: r).dropWhile p = body.dropWhile p ++ q :: r := by
  induction body with
  | nil => simp [hq]
  | cons c body ih =>
    rw [List.cons_append, List.dropWhile_cons, List.dropWhile_cons]
    split
    · exact ih
    · rfl

/-- A run that is cut off at a length ends before the quote as well. -/
theorem takeWhile_take_literal {p : UInt8 → Bool} (hq : p q = false) (n : Nat) (body r : Bytes) :
    ((body ++ q :: r).take n).takeWhile p = (body.take n).takeWhile p := by
  induction body generalizing n with
  | nil => cases n <;> simp [hq]
  | cons c body ih =>
    cases n with
    | zero => rfl
    | succ n =>
      rw [List.cons_append, List.take_succ_cons, List.take_succ_cons, List.takeWhile_cons,
        List.takeWhile_cons, ih]

/-- `append_octal`, called at the first digit, skips that and up to two more, and no other byte. -/
theorem appendOctal_skip (hq : isOctdigit q = false) (hd : isOctdigit d = true)
    (body r out : Bytes) :
    ∃ w rest, body = w ++ rest ∧ (∀ c ∈ w, isOctdigit c = true) ∧
      (appendOctal (d :: (body ++ q :: r)) out).1 = rest ++ q :: r := by
  obtain ⟨rest, hrest⟩ : (body.take 2).takeWhile isOctdigit <+: body :=
    (List.takeWhile_prefix _).trans (List.take_prefix 2 body)
  refine ⟨_, rest, hrest.symm, fun c => List.mem_takeWhile_imp, ?_⟩
  have hds : ((d :: (body ++ q :: r)).take 3).takeWhile isOctdigit =
      d :: (body.take 2).takeWhile isOctdigit := by
    rw [List.take_succ_cons, List.takeWhile_cons, if_pos hd, takeWhile_take_literal hq]
  rw [appendOctal, hds, List.length_cons, List.drop_succ_cons]
  generalize (body.take 2).takeWhile isOctdigit = w at hrest
  subst hrest
  show ((w ++ rest) ++ q :: r).drop w.length = rest ++ q :: r
  rw [List.append_assoc, List.drop_left]

/-- `append_hex` reads two digits or none. The quote is neither of them, so the pointer stays in
front of it. -/
theorem appendHex_skip (hq : isHexdigit q = false) (body r out : Bytes) :
    ∃ w rest, body = w ++ rest ∧ (∀ c ∈ w, isHexdigit c = true) ∧
      (appendHex (body ++ q :: r) out).1 = rest ++ q :: r := by
  unfold appendHex
  split
  · exact ⟨[], body, rfl, by simp, rfl⟩
  · next h =>
    simp only [Bool.or_eq_true, Bool.not_eq_true', not_or, Bool.not_eq_false] at h
    match body, h with
    | [], h => exact absurd h.1 (by simp [hq])
    | [a], h => exact absurd h.2 (by simp [hq])
    | a :: b :: rest, h => exact ⟨[a, b], rest, rfl, by simpa using h, rfl⟩

/-- `append_unicode` reads nothing where the braces are not both there. -/
theorem appendUnicode_skip (hq : q = 0x27 ∨ q = 0x22) (hd : ¬ ClosedUnicode 0x75 (body ++ [q])) :
    (appendUnicode (body ++ [q, 0]) out).1 = body ++ [q, 0] := by
  rw [appendUnicode]
  split
  · rfl
  next close hclose =>
  split
  · rfl
  next hhead =>
  rw [strchr_literal, Option.map_eq_some_iff] at hclose
  obtain ⟨t, ht, -⟩ := hclose
  refine absurd ⟨rfl, ?_, by rw [ht]; rfl⟩ hd
  rcases body with _ | ⟨c, body⟩
  · rcases hq with rfl | rfl <;> exact absurd (by simp) hhead
  · simpa using hhead

/-- The quote of a literal is no backslash. -/
theorem quote_ne_backslash (hq : q = 0x27 ∨ q = 0x22) : q ≠ 0x5C := by
  rcases hq with rfl | rfl <;> simp

/-- An octal digit is no backslash and no quote. -/
theorem isOctdigit_imp {c : UInt8} (h : isOctdigit c = true) : c ≠ 0x5C ∧ c ≠ 0x27 ∧ c ≠ 0x22 := by
  refine ⟨?_, ?_, ?_⟩ <;> rintro rfl <;> revert h <;> decide

/-- A hexadecimal digit is no backslash and no quote. -/
theorem isHexdigit_imp {c : UInt8} (h : isHexdigit c = true) : c ≠ 0x5C ∧ c ≠ 0x27 ∧ c ≠ 0x22 := by
  refine ⟨?_, ?_, ?_⟩ <;> rintro rfl <;> revert h <;> decide

/-- A whitespace byte is no backslash and no quote. -/
theorem isSpace_imp {c : UInt8} (h : isSpace c = true) : c ≠ 0x5C ∧ c ≠ 0x27 ∧ c ≠ 0x22 := by
  refine ⟨?_, ?_, ?_⟩ <;> rintro rfl <;> revert h <;> decide

/-- The `switch` on a known byte, as one equation for all of its cases. -/
theorem unescapeSwitch_cons (d : UInt8) (s out : Bytes) :
    unescapeSwitch (d :: s) out =
      if d = 0x0A then (s, out ++ [0x0A])
      else if d = 0x0D then (if s.headD 0 = 0x0A then s.tail else s, out ++ [0x0A])
      else match letterEscape d with
        | some b => (s, out ++ [b])
        | none =>
          if d = 0x78 then appendHex s out
          else if d = 0x75 then appendUnicode s out
          else if d = 0x7A then (s.dropWhile isSpace, out)
          else if isOctdigit d then appendOctal (d :: s) out
          else (s, out ++ [d]) := rfl

/-- After the escape `\d` the pointer `index` stands in the literal `body`, behind bytes that are
neither backslashes nor quotes; behind nothing, when the escape is of a backslash. -/
def Skips (q d : UInt8) (body index : Bytes) : Prop :=
  ∃ w rest, body = w ++ rest ∧ (∀ c ∈ w, c ≠ 0x5C ∧ c ≠ q) ∧ (d = 0x5C → w = []) ∧
    index = rest ++ [q, 0]

/-- An escape other than a closed `\u{...}` skips the byte after the backslash and bytes that are
neither backslashes nor quotes; an escaped backslash skips nothing more. By the cases of the
`switch`, each of which says what it reads behind its letter: hexadecimal digits, octal ones,
whitespace or nothing. -/
theorem unescapeSwitch_skip (hq : q = 0x27 ∨ q = 0x22) (hd : ¬ ClosedUnicode d (body ++ [q]))
    (out : Bytes) :
    Skips q d body (unescapeSwitch (d :: (body ++ [q, 0])) out).1 := by
  have hclass : isSpace q = false ∧ isHexdigit q = false ∧ isOctdigit q = false := by
    rcases hq with rfl | rfl <;> decide
  have hne : ∀ c : UInt8, c ≠ 0x5C ∧ c ≠ 0x27 ∧ c ≠ 0x22 → c ≠ 0x5C ∧ c ≠ q := by
    rcases hq with rfl | rfl <;> exact fun c h => ⟨h.1, by tauto⟩
  have hnone : Skips q d body (body ++ [q, 0]) := ⟨[], body, rfl, by simp, fun _ => rfl, rfl⟩
  generalize hr : unescapeSwitch (d :: (body ++ [q, 0])) out = r
  rw [unescapeSwitch_cons] at hr
  split at hr
  · subst hr; exact hnone
  split at hr
  · next hcr =>
    subst hr
    -- a newline after an escaped carriage return belongs to the escape
    rcases body with _ | ⟨c, body⟩
    · rcases hq with rfl | rfl <;> exact hnone
    · rcases eq_or_ne c 0x0A with rfl | hc
      · refine ⟨[0x0A], body, rfl, ?_, by simp [hcr], rfl⟩
        rcases hq with rfl | rfl <;> simp
      · show Skips q d (c :: body) (if c = 0x0A then body ++ [q, 0] else c :: (body ++ [q, 0]))
        rw [if_neg hc]
        exact hnone
  split at hr
  · subst hr; exact hnone
  split at hr
  · next hx =>
    obtain ⟨w, rest, hbody, hw, hptr⟩ := appendHex_skip hclass.2.1 body [0] out
    exact ⟨w, rest, hbody, fun c hc => hne c (isHexdigit_imp (hw c hc)), by simp [hx], hr ▸ hptr⟩
  split at hr
  · next hu =>
    subst hu hr
    rw [appendUnicode_skip hq hd]
    exact hnone
  split at hr
  · next hz =>
    subst hr
    refine ⟨body.takeWhile isSpace, body.dropWhile isSpace,
      (List.takeWhile_append_dropWhile).symm,
      fun c hc => hne c (isSpace_imp (List.mem_takeWhile_imp hc)), by simp [hz], ?_⟩
    exact dropWhile_literal hclass.1 body [0]
  split at hr
  · next ho =>
    obtain ⟨w, rest, hbody, hw, hptr⟩ := appendOctal_skip hclass.2.2 ho body [0] out
    refine ⟨w, rest, hbody, fun c hc => hne c (isOctdigit_imp (hw c hc)), ?_, hr ▸ hptr⟩
    rintro rfl
    cases ho
  · subst hr; exact hnone

/-- A closed `\u{...}` skips to after the first closing brace, wherever that is in the literal. The
brace is not the closing quote, so that it lies in the body. -/
theorem unescapeSwitch_unicode (hq : q = 0x27 ∨ q = 0x22) (hd : ClosedUnicode d (body ++ [q]))
    (out : Bytes) :
    ∃ w rest, body = w ++ 0x7D :: rest ∧
      strchr (body ++ [q]) 0x7D = some (0x7D :: (rest ++ [q])) ∧
      (unescapeSwitch (d :: (body ++ [q, 0])) out).1 = rest ++ [q, 0] := by
  obtain ⟨rfl, hhead, hsome⟩ := hd
  obtain ⟨t, ht⟩ := Option.isSome_iff_exists.mp hsome
  obtain ⟨w, r, hs, rfl⟩ := strchr_eq_some ht
  -- the brace is not the final quote
  obtain ⟨rest, rfl⟩ : ∃ rest, r = rest ++ [q] := by
    have hlast : q = (0x7D :: r).getLast (List.cons_ne_nil _ _) := by
      have := congrArg List.getLast? hs
      rwa [List.getLast?_concat, List.getLast?_append,
        List.getLast?_eq_some_getLast (List.cons_ne_nil _ _), Option.some_or,
        Option.some_inj] at this
    rcases List.eq_nil_or_concat r with rfl | ⟨rest, c, rfl⟩
    · rcases hq with rfl | rfl <;> cases hlast
    · simp only [List.concat_eq_append] at hlast ⊢
      rw [List.getLast_cons (by simp), List.getLast_concat] at hlast
      exact ⟨rest, by rw [hlast]⟩
  refine ⟨w, rest, ?_, ht, ?_⟩
  · have : body ++ [q] = w ++ 0x7D :: rest ++ [q] := by simpa using hs
    exact List.append_cancel_right this
  · have hopen : (body ++ [q, 0]).headD 0 = 0x7B := by
      match body with
      | [] => rcases hq with rfl | rfl <;> simp at hhead
      | c :: body => simpa using hhead
    have hswitch : unescapeSwitch (0x75 :: (body ++ [q, 0])) out =
        appendUnicode (body ++ [q, 0]) out := rfl
    rw [hswitch, appendUnicode, strchr_literal, ht]
    simp only [Option.map_some, hopen, ne_eq, not_true_eq_false, if_false]
    simp

end

end Eltn
