import Eltn.Lexer.Compare
import Eltn.Lexer.Spans
import Eltn.Lib.Search

/-!
# Names and reserved words

A run of name bytes is one token, classified by two means: `token_buffer_equals` compares it with
`true`, `false` and `nil` as far as it goes, and a binary search in `KEYWORDS` finds the reserved
words (`isKeyword_iff`). `name_classified_iff` compares the outcome with the grammar.
-/

namespace Eltn

/-- `boolean` and `nil` of the grammar. -/
def literalWords : List Bytes := ["true", "false", "nil"].map ascii

/-- `reserved_word` of the grammar. -/
def reservedWords : List Bytes :=
  ["and", "break", "do", "else", "elseif", "end", "for", "function", "goto", "if", "in", "local",
    "not", "or", "repeat", "return", "then", "until", "while"].map ascii

/-- The token of a run of name bytes that the grammar asks for: the three literal words, the
reserved words, and all others as names. -/
structure Classified (w : Bytes) (t : Token) : Prop where
  booleanTrue : t = .booleanTrue ↔ w = ascii "true"
  booleanFalse : t = .booleanFalse ↔ w = ascii "false"
  nil : t = .nil ↔ w = ascii "nil"
  invalid : t = .invalid ↔ w ∈ reservedWords
  name : t = .name ↔ w ∉ literalWords ∧ w ∉ reservedWords

section
variable {w k r : Bytes} {c : UInt8}

namespace Lexer

/-! ## The keyword table -/

/-- The table of keywords is sorted, as a binary search needs it. -/
theorem keywords_ascend : keywords.Pairwise fun x y => strcmp x y = .lt := by decide

/-- No keyword has a zero byte, so `strncmp` compares all of it. -/
theorem zero_notMem_keywords : ∀ k ∈ keywords, 0 ∉ k := by decide

/-- **`token_buffer_is_keyword`** is membership in the table, which is sorted for the comparison. -/
theorem isKeyword_iff (h : 0 ∉ w) : tokenBufferIsKeyword w = true ↔ w ∈ keywords := by
  rw [tokenBufferIsKeyword, bsearch_iff (sortedFor_strcmp keywords_ascend w) (Nat.le_refl _)]
  constructor
  · rintro ⟨k, hk, heq⟩
    rwa [(strcmp_eq h (zero_notMem_keywords k hk)).mp heq]
  · intro hw
    exact ⟨w, hw, (strcmp_eq h h).mpr rfl⟩

/-- The keywords are the words of the grammar and the reserved ones. -/
theorem mem_keywords : w ∈ keywords ↔ w ∈ literalWords ∨ w ∈ reservedWords := by
  simp only [keywords, literalWords, reservedWords, List.map_cons, List.map_nil, List.mem_cons,
    List.not_mem_nil, or_false]
  grind

/-! ## The classification -/

/-- A run is classified right iff it is no proper front of `true`, `false` or `nil`, since the
comparison with these stops at the length of the run. The source asks for `true` first, then
`false`, then `nil`, and for a keyword last, so that a front of one of the three words never gets to
be a name. -/
theorem nameToken_classified (h : 0 ∉ w) :
    Classified w (nameToken w) ↔ ∀ k ∈ literalWords, w <+: k → w = k := by
  have htrue : ascii "true" ∉ reservedWords := by decide
  have hfalse : ascii "false" ∉ reservedWords := by decide
  have hnil : ascii "nil" ∉ reservedWords := by decide
  have hdiff : ascii "true" ≠ ascii "false" ∧ ascii "true" ≠ ascii "nil" ∧
      ascii "false" ≠ ascii "nil" := by decide
  have hmem (w : Bytes) : w ∈ literalWords ↔
      w = ascii "true" ∨ w = ascii "false" ∨ w = ascii "nil" := by
    simp [literalWords]
  unfold nameToken
  simp only [tokenBufferEquals_iff h, isKeyword_iff h, mem_keywords]
  constructor
  · intro hclass k hk hpre
    -- the first of the three words that the run begins is the one it is taken for
    split at hclass
    · next ht =>
      have hw : w = ascii "true" := hclass.booleanTrue.mp rfl
      subst hw
      rcases (hmem k).mp hk with rfl | rfl | rfl
      · rfl
      · exact absurd hpre (by decide)
      · exact absurd hpre (by decide)
    next ht =>
    split at hclass
    · next hf =>
      have hw : w = ascii "false" := hclass.booleanFalse.mp rfl
      subst hw
      rcases (hmem k).mp hk with rfl | rfl | rfl
      · exact absurd hpre ht
      · rfl
      · exact absurd hpre (by decide)
    next hf =>
    rcases (hmem k).mp hk with rfl | rfl | rfl
    · exact absurd hpre ht
    · exact absurd hpre hf
    · rw [if_pos hpre] at hclass
      exact hclass.nil.mp rfl
  · intro hfull
    have hiff : ∀ k ∈ literalWords, (w <+: k ↔ w = k) := fun k hk =>
      ⟨hfull k hk, fun heq => heq ▸ List.prefix_refl w⟩
    simp only [hiff (ascii "true") ((hmem _).mpr (.inl rfl)),
      hiff (ascii "false") ((hmem _).mpr (.inr (.inl rfl))),
      hiff (ascii "nil") ((hmem _).mpr (.inr (.inr rfl)))]
    by_cases ht : w = ascii "true"
    · subst ht
      constructor <;> simp [htrue, hdiff, hmem]
    by_cases hf : w = ascii "false"
    · subst hf
      constructor <;> simp [hfalse, hdiff, hdiff.1.symm, hmem]
    by_cases hn : w = ascii "nil"
    · subst hn
      constructor <;> simp [hnil, hdiff.2.1.symm, hdiff.2.2.symm, hmem]
    have hlit : w ∉ literalWords := by simp [hmem, ht, hf, hn]
    by_cases hres : w ∈ reservedWords <;> constructor <;> simp [ht, hf, hn, hlit, hres]

/-! ## The token -/

/-- A name start leads a run of name bytes, as no case of the `switch` before has it. -/
theorem lead_name (h : isNameStart c = true) :
    Scan.lead c r = Scan.run isNamePart nameToken [c] r := by
  have hne : ∀ d, isNameStart d = false → c ≠ d := by
    rintro d hd rfl
    rw [h] at hd
    cases hd
  have hdigit : isDigit c = false := by
    simp only [isNameStart, isLetter, isDigit, Bool.or_eq_true, Bool.and_eq_true,
      Bool.and_eq_false_iff, decide_eq_true_eq, decide_eq_false_iff_not, UInt8.le_iff_toNat_le,
      ← UInt8.toNat_inj] at h ⊢
    simp at h ⊢
    omega
  simp [Scan.lead, punctuation, h, hdigit, hne 0x5B rfl, hne 0x5D rfl, hne 0x7B rfl, hne 0x7D rfl,
    hne 0x3D rfl, hne 0x2C rfl, hne 0x3B rfl, hne 0x2E rfl, hne 0x2D rfl, hne 0x27 rfl,
    hne 0x22 rfl]

end Lexer

/-- Whitespace before a token is skipped. -/
theorem scan_append {sp : Bytes} (hsp : ∀ c ∈ sp, isSpace c = true) : scan (sp ++ r) = scan r := by
  rw [scan, List.dropWhile_append_of_pos hsp, scan]

/-- The longest run at the front of a list. -/
theorem takeWhile_run {p : UInt8 → Bool} {rest : Bytes} (hw : ∀ c ∈ w, p c = true)
    (hrest : rest.head?.any p = false) :
    (w ++ rest).takeWhile p = w ∧ (w ++ rest).dropWhile p = rest := by
  rw [List.takeWhile_append_of_pos hw, List.dropWhile_append_of_pos hw]
  cases rest with
  | nil => simp
  | cons c rest =>
    have hc : p c = false := by simpa using hrest
    simp [hc]

/-- The scan of a run of name bytes takes all of it, before a byte that is none. -/
theorem scan_name {rest : Bytes} (hstart : w.head?.any isNameStart = true)
    (hpart : ∀ c ∈ w, isNamePart c = true) (hrest : rest.head?.any isNamePart = false) :
    scan (w ++ rest) = ⟨Lexer.nameToken w, w, rest⟩ := by
  cases w with
  | nil => cases hstart
  | cons c w =>
    have hc : isNameStart c = true := by simpa using hstart
    have hspace : isSpace c = false := by
      rw [Bool.eq_false_iff]
      intro hspace
      simp only [isSpace, Bool.or_eq_true, decide_eq_true_eq] at hspace
      rcases hspace with ((((rfl | rfl) | rfl) | rfl) | rfl) | rfl <;> cases hc
    obtain ⟨htake, hdrop⟩ := takeWhile_run (List.forall_mem_cons.mp hpart).2 hrest
    rw [scan, List.cons_append, List.dropWhile_cons, if_neg (by simp [hspace])]
    dsimp only
    rw [Lexer.lead_name hc, Scan.run, htake, hdrop]
    rfl

namespace Lexer

variable {σ : Type} {cs : CharSource σ}

/-- **When a name is classified right.** A longest run `w` of name bytes that starts with a letter
or an underscore, read behind any whitespace, becomes the token the grammar asks for with the text
`w`, and what follows it stays unread, iff `w` is no proper front of `true`, `false` or `nil`. The
comparison with these stops at the length of the token, so that each of their fronts counts as the
word. -/
theorem name_classified_iff {src sp rest : Bytes} {self : Lexer σ}
    (h : Ready cs src (sp ++ w ++ rest) self) (hsp : ∀ c ∈ sp, isSpace c = true)
    (hstart : w.head?.any isNameStart = true) (hpart : ∀ c ∈ w, isNamePart c = true)
    (hrest : rest.head?.any isNamePart = false) :
    (Classified w (nextToken cs self).1.1 ∧ (nextToken cs self).2.tokenString = w ∧
        Ready cs src rest (nextToken cs self).2) ↔
      ∀ k ∈ literalWords, w <+: k → w = k := by
  obtain ⟨⟨htok, htext, hready⟩, -⟩ := nextToken_agrees h
  rw [List.append_assoc, scan_append hsp, scan_name hstart hpart hrest] at htok htext hready
  have hzero : (0 : UInt8) ∉ w := fun hmem => by cases hpart 0 hmem
  rw [htok, nameToken_classified hzero]
  exact ⟨And.left, fun hfull => ⟨hfull, htext, hready⟩⟩

/-- The name `falsetto` before a semicolon: it starts with a literal word, and is a name. -/
theorem name_classified_example :
    Classified (ascii "falsetto")
        (nextToken CharSource.ofBytes { source := ascii " falsetto;" }).1.1 ∧
      (nextToken CharSource.ofBytes { source := ascii " falsetto;" }).2.tokenString =
        ascii "falsetto" ∧
      Ready CharSource.ofBytes (ascii " falsetto;") (ascii ";")
        (nextToken CharSource.ofBytes { source := ascii " falsetto;" }).2 :=
  (name_classified_iff (w := ascii "falsetto") (ready_ofBytes (ascii " falsetto;"))
    (show ∀ c ∈ ascii " ", isSpace c = true by decide +kernel) rfl (by decide +kernel) rfl).mpr
    (by decide +kernel)

/-- The name `t` is taken for `true`. -/
theorem name_classified_fails :
    (nextToken CharSource.ofBytes { source := ascii "t" }).1.1 = .booleanTrue ∧
      (nextToken CharSource.ofBytes { source := ascii "t" }).2.tokenString = ascii "t" ∧
      ¬ Classified (ascii "t") (nextToken CharSource.ofBytes { source := ascii "t" }).1.1 := by
  refine ⟨by decide, by decide, fun h => ?_⟩
  have := h.booleanTrue.mp (by decide)
  revert this
  decide

end Lexer

end

end Eltn
