import Eltn.Parser.Run

/-!
# The grammar of ELTN

The parser rules of the specification, over the tokens that are not comments. A derivation carries
the listing of the events that it stands for, from left to right, each with the text of its token.
-/

namespace Eltn

open ParserState

/-- The rules of the grammar. `entryRest` is what follows the first entry of an `entrylist`. -/
inductive Rule where
  | deflist | definition | value | table | entrylist | entryRest | entry | key
deriving DecidableEq, Repr

/-- The tokens derive from a rule, and have the listing: the events and texts of the names, keys and
values, and of the braces around a table. Separators, brackets and equals signs are not listed. -/
inductive Derives : Rule → List Lexeme → Listing → Prop
  | noDefinition : Derives .deflist [] []
  | deflist {d ds : List Lexeme} {l ls : Listing} : Derives .definition d l →
      Derives .deflist ds ls → Derives .deflist (d ++ ds) (l ++ ls)
  | definition {x eq : Lexeme} {v : List Lexeme} {l : Listing} : x.token = .name →
      eq.token = .equals → Derives .value v l →
      Derives .definition (x :: eq :: v) ((.defName, x.text) :: l)
  | terminated {x eq semi : Lexeme} {v : List Lexeme} {l : Listing} : x.token = .name →
      eq.token = .equals → Derives .value v l → semi.isSemicolon →
      Derives .definition (x :: eq :: v ++ [semi]) ((.defName, x.text) :: l)
  | scalar {x : Lexeme} {e : Event} : scalarEvent x.token = some e →
      Derives .value [x] [(e, x.text)]
  | value {t : List Lexeme} {l : Listing} : Derives .table t l → Derives .value t l
  | emptyTable {o c : Lexeme} : o.token = .curlyOpen → c.token = .curlyClose →
      Derives .table [o, c] [(.tableStart, o.text), (.tableEnd, c.text)]
  | table {o c : Lexeme} {es : List Lexeme} {l : Listing} : o.token = .curlyOpen →
      Derives .entrylist es l → c.token = .curlyClose →
      Derives .table (o :: es ++ [c]) ((.tableStart, o.text) :: l ++ [(.tableEnd, c.text)])
  | entrylist {v vs : List Lexeme} {l ls : Listing} : Derives .entry v l →
      Derives .entryRest vs ls → Derives .entrylist (v ++ vs) (l ++ ls)
  | noEntry : Derives .entryRest [] []
  | separator {sep : Lexeme} : sep.isSeparator → Derives .entryRest [sep] []
  | entryRest {sep : Lexeme} {v vs : List Lexeme} {l ls : Listing} : sep.isSeparator →
      Derives .entry v l → Derives .entryRest vs ls →
      Derives .entryRest (sep :: v ++ vs) (l ++ ls)
  | keyed {k : List Lexeme} {eq : Lexeme} {v : List Lexeme} {l ls : Listing} : Derives .key k l →
      eq.token = .equals → Derives .value v ls → Derives .entry (k ++ eq :: v) (l ++ ls)
  | implicit {v : List Lexeme} {l : Listing} : Derives .value v l → Derives .entry v l
  | name {x : Lexeme} : x.token = .name → Derives .key [x] [(.keyString, x.text)]
  | bracket {o x c : Lexeme} {e : Event} : o.token = .squareOpen → keyEvent x.token = some e →
      c.token = .squareClose → Derives .key [o, x, c] [(e, x.text)]

/-! ## Nesting -/

section
variable {rule : Rule} {toks rest : List Lexeme} {l : Listing} {x : Lexeme} {depth : Int}

/-- Braces match in everything that derives: each opening brace adds one, each closing one takes it
off, and the sum is zero. By induction on the derivation: only the two forms of a table have braces
of their own. -/
theorem Derives.balanced (h : Derives rule toks l) : (braces toks).sum = 0 := by
  have hcons : ∀ (x : Lexeme) (toks : List Lexeme),
      (braces (x :: toks)).sum = x.brace.toList.sum + (braces toks).sum := by
    intro x toks
    rw [braces_cons, List.sum_append]
  have happend : ∀ toks toks' : List Lexeme,
      (braces (toks ++ toks')).sum = (braces toks).sum + (braces toks').sum := by
    intro toks toks'
    rw [braces_append, List.sum_append]
  have hnone : ∀ {x : Lexeme} {t : Token}, x.token = t → t ≠ .curlyOpen ∧ t ≠ .curlyClose →
      x.brace.toList.sum = 0 := by
    intro x t hx ht
    rw [Lexeme.brace_of_ne hx ht]
    rfl
  have hopen : ∀ {x : Lexeme}, x.token = .curlyOpen → x.brace.toList.sum = 1 := by
    intro x hx
    rw [Lexeme.brace, if_pos hx]
    rfl
  have hclose : ∀ {x : Lexeme}, x.token = .curlyClose → x.brace.toList.sum = -1 := by
    intro x hx
    rw [Lexeme.brace, hx]
    rfl
  have hnil : (braces []).sum = 0 := rfl
  induction h with
  | noDefinition => exact hnil
  | deflist _ _ ih ihs => rw [happend, ih, ihs, add_zero]
  | definition hname heq _ ih =>
    rw [hcons, hcons, ih, hnone hname (by simp), hnone heq (by simp)]
    rfl
  | terminated hname heq _ hsemi ih =>
    have hsemi' := of_decide_eq_true hsemi
    rw [happend, hcons, hcons, hcons, ih, hnone hname (by simp),
      hnone heq (by simp), hnone hsemi' (by simp), hnil]
    rfl
  | scalar hscalar =>
    rw [hcons, hnone rfl (scalarEvent_ne_brace hscalar), hnil]
    rfl
  | value _ ih => exact ih
  | emptyTable ho hc =>
    rw [hcons, hcons, hopen ho, hclose hc, hnil]
    rfl
  | table ho _ hc ih =>
    rw [happend, hcons, hcons, ih, hopen ho, hclose hc, hnil]
    rfl
  | entrylist _ _ ih ihs => rw [happend, ih, ihs, add_zero]
  | noEntry => exact hnil
  | separator hsep =>
    rw [hcons, Lexeme.brace_separator hsep, hnil]
    rfl
  | entryRest hsep _ _ ih ihs =>
    rw [happend, hcons, ih, ihs, Lexeme.brace_separator hsep]
    rfl
  | keyed _ heq _ ih ihs =>
    rw [happend, hcons, ih, ihs, hnone heq (by simp)]
    rfl
  | implicit _ ih => exact ih
  | name hname =>
    rw [hcons, hnone hname (by simp), hnil]
    rfl
  | bracket ho hkey hc =>
    rw [hcons, hcons, hcons, hnone ho (by simp), hnone rfl (keyEvent_ne_brace hkey),
      hnone hc (by simp), hnil]
    rfl

/-! ## Top-level semicolons -/

/-- The tokens without the semicolons that stand outside of tables, starting at a depth; inside
tables a semicolon is a separator and stays. -/
def dropTopSemis : Int → List Lexeme → List Lexeme
  | _, [] => []
  | depth, x :: toks =>
    if x.isSemicolon ∧ depth = 0 then dropTopSemis depth toks
    else x :: dropTopSemis (depth + x.brace.toList.sum) toks

/-- A semicolon outside of tables is dropped. -/
theorem dropTopSemis_semicolon (hx : x.isSemicolon) :
    dropTopSemis 0 (x :: toks) = dropTopSemis 0 toks := by
  rw [dropTopSemis, if_pos ⟨hx, rfl⟩]

/-- Any other token is kept. -/
theorem dropTopSemis_cons (h : ¬ (x.isSemicolon ∧ depth = 0)) :
    dropTopSemis depth (x :: toks) = x :: dropTopSemis (depth + x.brace.toList.sum) toks := by
  rw [dropTopSemis, if_neg h]

/-- A token other than a semicolon and a brace is kept. -/
theorem dropTopSemis_token {t : Token} (hx : x.token = t)
    (ht : t ≠ .semicolon ∧ t ≠ .curlyOpen ∧ t ≠ .curlyClose) :
    dropTopSemis depth (x :: toks) = x :: dropTopSemis depth toks := by
  rw [dropTopSemis_cons, Lexeme.brace_of_ne hx ht.2]
  · rw [Option.toList_none, List.sum_nil, add_zero]
  · rintro ⟨hsemi, -⟩
    rw [Lexeme.isSemicolon, hx] at hsemi
    exact ht.1 (of_decide_eq_true hsemi)

/-- Semicolons have no braces. -/
theorem braces_dropTopSemis (toks : List Lexeme) :
    ∀ depth, braces (dropTopSemis depth toks) = braces toks := by
  induction toks with
  | nil => exact fun _ => rfl
  | cons x toks ih =>
    intro depth
    by_cases h : x.isSemicolon ∧ depth = 0
    · obtain ⟨hx, rfl⟩ := h
      have hsemi : x.token = .semicolon := of_decide_eq_true hx
      rw [dropTopSemis_semicolon hx, ih, braces_cons,
        Lexeme.brace_of_ne hsemi ⟨nofun, nofun⟩]
      rfl
    · rw [dropTopSemis_cons h, braces_cons, ih, braces_cons]

/-- What `dropTopSemis` does to the tokens of a rule in front of others: it keeps those of a value,
and those of a part of a table where it is inside that table. -/
def Rule.Kept (rule : Rule) (toks : List Lexeme) : Prop :=
  match rule with
  | .deflist | .definition => True
  | .value | .table => ∀ {depth : Int} {rest : List Lexeme}, 0 ≤ depth →
      dropTopSemis depth (toks ++ rest) = toks ++ dropTopSemis depth rest
  | _ => ∀ {depth : Int} {rest : List Lexeme}, 0 < depth →
      dropTopSemis depth (toks ++ rest) = toks ++ dropTopSemis depth rest

/-- What derives keeps its semicolons where those outside of all tables are dropped, save those
between definitions: all others stand inside of a table. By induction on the derivation: a table
raises the depth at its opening brace, so that its separators are met above depth zero. -/
theorem Derives.kept (h : Derives rule toks l) : rule.Kept toks := by
  have hsep : ∀ {sep : Lexeme} {depth : Int} {toks : List Lexeme}, sep.isSeparator → 0 < depth →
      dropTopSemis depth (sep :: toks) = sep :: dropTopSemis depth toks := by
    intro sep depth toks hsep hdepth
    rw [dropTopSemis_cons (by omega), Lexeme.brace_separator hsep]
    simp
  have hopen : ∀ {o : Lexeme} {depth : Int} {toks : List Lexeme}, o.token = .curlyOpen →
      dropTopSemis depth (o :: toks) = o :: dropTopSemis (depth + 1) toks := by
    intro o depth toks ho
    rw [dropTopSemis_cons (by simp [Lexeme.isSemicolon, ho]), Lexeme.brace, if_pos ho]
    rfl
  have hclose : ∀ {c : Lexeme} {depth : Int} {toks : List Lexeme}, c.token = .curlyClose →
      dropTopSemis (depth + 1) (c :: toks) = c :: dropTopSemis depth toks := by
    intro c depth toks hc
    have hsum : depth + 1 + c.brace.toList.sum = depth := by
      rw [Lexeme.brace, hc]
      show depth + 1 + (-1) = depth
      omega
    rw [dropTopSemis_cons (by simp [Lexeme.isSemicolon, hc]), hsum]
  induction h with
  | noDefinition => trivial
  | deflist => trivial
  | definition => trivial
  | terminated => trivial
  | scalar hscalar =>
    intro depth rest _
    refine dropTopSemis_token rfl ⟨?_, scalarEvent_ne_brace hscalar⟩
    intro hsemi
    rw [hsemi] at hscalar
    cases hscalar
  | value _ ih => exact ih
  | emptyTable ho hc =>
    intro depth rest _
    rw [List.cons_append, hopen ho, List.cons_append, hclose hc]
    rfl
  | table ho _ hc ih =>
    intro depth rest hdepth
    rw [List.append_assoc, List.cons_append, hopen ho, ih (by omega), List.cons_append, hclose hc]
    simp
  | entrylist _ _ ih ihs =>
    intro depth rest hdepth
    rw [List.append_assoc, ih hdepth, ihs hdepth, List.append_assoc]
  | noEntry => exact fun _ => rfl
  | separator h => exact fun hdepth => hsep h hdepth
  | entryRest h _ _ ih ihs =>
    intro depth rest hdepth
    rw [List.append_assoc, List.cons_append, hsep h hdepth, ih hdepth, ihs hdepth]
    simp
  | keyed _ heq _ ih ihs =>
    intro depth rest hdepth
    rw [List.append_assoc, ih hdepth, List.cons_append,
      dropTopSemis_token heq (by simp), ihs (by omega), List.append_assoc]
    rfl
  | implicit _ ih => exact fun hdepth => ih (by omega)
  | name hname => exact fun _ => dropTopSemis_token hname (by simp)
  | @bracket _ x _ _ ho hkey hc =>
    intro depth rest _
    have hx : x.token ≠ .semicolon := by
      intro hsemi
      rw [hsemi] at hkey
      cases hkey
    rw [List.cons_append, dropTopSemis_token ho (by simp), List.cons_append,
      dropTopSemis_token rfl ⟨hx, keyEvent_ne_brace hkey⟩, List.cons_append,
      dropTopSemis_token hc (by simp)]
    rfl

/-- A value ends with a token other than a semicolon: a scalar or a closing brace. -/
theorem Derives.getLast_value (h : Derives .value toks l) :
    ∃ toks' x, toks = toks' ++ [x] ∧ ¬ x.isSemicolon := by
  have hclose : ∀ {c : Lexeme}, c.token = .curlyClose → ¬ c.isSemicolon := by
    intro c hc
    rw [Lexeme.isSemicolon, hc]
    simp
  cases h with
  | scalar hscalar =>
    refine ⟨[], _, rfl, fun hsemi => ?_⟩
    rw [of_decide_eq_true hsemi] at hscalar
    cases hscalar
  | value htable =>
    cases htable with
    | @emptyTable o c _ hc => exact ⟨[o], c, rfl, hclose hc⟩
    | table _ _ hc => exact ⟨_, _, rfl, hclose hc⟩

end

end Eltn
