import ScriptSchema.Problem.Scalar

/-!
# Lookups

A lookup is a text in quotes or the path of a variable. The rule looks for the quotes by cutting the
text at byte positions, and the characters between the quotes may take more bytes than one.

* `IsQuoted`, `IsPath`: the grammar;
* `enclosed?_quoted`, `enclosed?_open`: texts with an opening quote, closed by it or not;
* `isSome_enclosed?`, `isQuoted_iff`: they can be cut, and the slices tell whether they are in
  quotes;
* **`lookupable_grammar`**: which values are lookups, and that every slice exists.
-/

namespace ScriptSchema

/-- Word characters and some more characters, at least one of them. -/
theorem Pattern.accepts_words_iff {more : List Char} {s : String} :
    (Pattern.some (CharSet.wordChar.union (.ofChars more))).accepts s.toList = true ↔
      s ≠ "" ∧ ∀ c ∈ s.toList, c.isAlphanum = true ∨ c = '_' ∨ c ∈ more := by
  rw [accepts_some_iff]
  refine and_congr (not_congr String.toList_eq_nil_iff) (forall_congr' fun c => ?_)
  rw [CharSet.has_union rfl rfl, CharSet.has_wordChar, CharSet.has_ofChars]
  simp [or_assoc]

namespace Scalar

/-- The text with the character in front of it and behind it. -/
def quoted (q : Char) (w : String) : String := String.singleton q ++ (w ++ String.singleton q)

/-- A text in quotes, single or double, that is not blank and in which the quote does not occur. -/
def IsQuoted (s : String) : Prop :=
  ∃ q w, (q = '"' ∨ q = '\x27') ∧ w ≠ "" ∧ q ∉ w.toList ∧ s = quoted q w

/-- The path of a variable: ASCII letters, digits, underscores, points and dashes. -/
def IsPath (s : String) : Prop :=
  s ≠ "" ∧ ∀ c ∈ s.toList, c.isAlphanum = true ∨ c = '_' ∨ c = '.' ∨ c = '-'

theorem accepts_lookupChars_iff {s : String} :
    Grammar.lookupChars.accepts s.toList = true ↔ IsPath s := by
  rw [Grammar.lookupChars, Pattern.accepts_words_iff, IsPath]
  simp

/-! ## Quotes -/

theorem head?_quoted (q : Char) (w : String) : (quoted q w).toList.head? = some q := by
  simp [quoted]

theorem opensWith_quoted (q : Char) (w : String) : opensWith (quoted q w) q = true :=
  beq_iff_eq.2 (head?_quoted q w)

theorem mem_quoteMarks_iff {q : Char} : q ∈ quoteMarks ↔ q = '"' ∨ q = '\x27' := by
  simp [quoteMarks]

section Quote

variable {q : Char} (hq : q ∈ quoteMarks)
include hq

theorem utf8ByteSize_quote : (String.singleton q).utf8ByteSize = 1 := by
  rw [String.utf8ByteSize_singleton]
  rcases mem_quoteMarks_iff.1 hq with rfl | rfl <;> rfl

theorem fromByte?_quote (s : String) : fromByte? (String.singleton q ++ s) 1 = some s := by
  have h := fromByte?_append (String.singleton q) s
  rwa [utf8ByteSize_quote hq] at h

theorem toByte?_quote (w : String) :
    toByte? (w ++ String.singleton q) ((w ++ String.singleton q).utf8ByteSize - 1) = some w := by
  have h := toByte?_append w (String.singleton q)
  rwa [String.utf8ByteSize_append, utf8ByteSize_quote hq, Nat.add_sub_cancel]

/-- Behind the opening quote stands a text that ends with the same quote. -/
theorem enclosed?_quoted (w : String) :
    enclosed? q (quoted q w) = some (decide (w ≠ "") && !w.toList.contains q) := by
  have hends : closesWith (w ++ String.singleton q) q = true := closesWith_iff.2 ⟨w, rfl⟩
  have hlong : 1 < (w ++ String.singleton q).utf8ByteSize ↔ w ≠ "" := by
    rw [String.utf8ByteSize_append, utf8ByteSize_quote hq, Ne, ← String.utf8ByteSize_eq_zero_iff]
    omega
  rw [quoted, enclosed?, fromByte?_quote hq]
  dsimp only [Option.bind_eq_bind, Option.bind_some]
  by_cases hw : w = ""
  · rw [if_neg fun h => hlong.1 h.1 hw]
    simp [hw]
  · rw [if_pos ⟨hlong.2 hw, hends⟩, toByte?_quote hq]
    simp [hw]

/-- Behind the opening quote stands another text. -/
theorem enclosed?_open {s : String} (hs : closesWith s q ≠ true) :
    enclosed? q (String.singleton q ++ s) = some false := by
  rw [enclosed?, fromByte?_quote hq]
  dsimp only [Option.bind_eq_bind, Option.bind_some]
  rw [if_neg fun h => hs h.2]
  rfl

/-- **A text with an opening quote can be cut.** -/
theorem isSome_enclosed? {s : String} (hs : opensWith s q = true) :
    (enclosed? q s).isSome = true := by
  obtain ⟨inner, rfl⟩ := opensWith_iff.1 hs
  by_cases hends : closesWith inner q = true
  · obtain ⟨w, rfl⟩ := closesWith_iff.1 hends
    exact Option.isSome_of_eq_some (enclosed?_quoted hq w)
  · exact Option.isSome_of_eq_some (enclosed?_open hq hends)

/-- **A text with an opening quote is in quotes** if the rule says so. -/
theorem isQuoted_iff {s : String} (hs : opensWith s q = true) :
    IsQuoted s ↔ enclosed? q s = some true := by
  constructor
  · rintro ⟨q', w, -, hw, hn, rfl⟩
    obtain rfl : q' = q := Option.some.inj ((head?_quoted q' w).symm.trans (eq_of_beq hs))
    rw [enclosed?_quoted hq]
    simp [hw, hn]
  · intro h
    obtain ⟨inner, rfl⟩ := opensWith_iff.1 hs
    by_cases hends : closesWith inner q = true
    · obtain ⟨w, rfl⟩ := closesWith_iff.1 hends
      have hw : w ≠ "" ∧ q ∉ w.toList := by
        simpa using (enclosed?_quoted hq w).symm.trans h
      exact ⟨q, w, mem_quoteMarks_iff.1 hq, hw.1, hw.2, rfl⟩
    · nomatch (enclosed?_open hq hends).symm.trans h

/-- A path does not begin with a quote. -/
theorem not_opensWith_of_path {s : String} (h : IsPath s) : opensWith s q ≠ true := by
  intro hs
  have hc := h.2 q (List.mem_of_head? (eq_of_beq hs))
  rcases mem_quoteMarks_iff.1 hq with rfl | rfl
  · exact absurd hc (by decide)
  · exact absurd hc (by decide)

end Quote

/-! ## The rule -/

/-- **The rule accepts texts in quotes and paths**, and nothing else. -/
theorem lookupProblem?_eq_none_iff {label name s : String} :
    lookupProblem? label name (.string s) = none ↔ IsQuoted s ∨ IsPath s := by
  unfold lookupProblem?
  dsimp only
  rcases hf : quoteMarks.find? (opensWith s ·) with _ | q
  · have hquoted : ¬ IsQuoted s := by
      rintro ⟨q, w, hq, -, -, rfl⟩
      exact List.find?_eq_none.1 hf q (mem_quoteMarks_iff.2 hq) (opensWith_quoted q w)
    rw [or_iff_right hquoted, ← accepts_lookupChars_iff]
    by_cases hs : s = ""
    · subst hs
      exact iff_of_false nofun (by decide)
    · simp [hs]
  · have hq := List.mem_of_find?_eq_some hf
    have hopens : opensWith s q = true := List.find?_some hf
    have hs : s ≠ "" := by
      rintro rfl
      cases hopens
    obtain ⟨closed, hc⟩ := Option.isSome_iff_exists.1 (isSome_enclosed? hq hopens)
    rw [or_iff_left fun h => not_opensWith_of_path hq h hopens, isQuoted_iff hq hopens, if_neg hs]
    dsimp only
    rw [hc]
    cases closed <;> simp

/-- **A value is accepted as a lookup** if it is a text in quotes or a path, and only then. Wherever
the rule cuts a text there is a slice. -/
theorem lookupable_grammar :
    (∀ required name v, lookupable.problem? required name v = none ↔
      ∃ s, v = .string s ∧ (IsQuoted s ∨ IsPath s)) ∧
    ∀ s, ∀ q ∈ quoteMarks, opensWith s q = true → (enclosed? q s).isSome = true := by
  refine ⟨fun required name v => ?_, fun s q hq => isSome_enclosed? hq⟩
  cases v with
  | string s =>
    rw [problem?, lookupProblem?_eq_none_iff]
    simp
  | _ => simp [problem?, lookupProblem?]

/-- Characters of two bytes stand between the quotes. -/
theorem lookupable_grammar_accents :
    lookupable.problem? false "title" (.string (quoted '"' "été")) = none ∧
      opensWith (quoted '"' "été") '"' = true ∧
      (enclosed? '"' (quoted '"' "été")).isSome = true := by
  have hopens : opensWith (quoted '"' "été") '"' = true := opensWith_quoted _ _
  have hquoted : IsQuoted (quoted '"' "été") :=
    ⟨'"', "été", .inl rfl, by decide, by decide, rfl⟩
  exact ⟨(lookupable_grammar.1 _ _ _).2 ⟨_, rfl, .inl hquoted⟩, hopens,
    lookupable_grammar.2 _ _ (by decide) hopens⟩

end Scalar

end ScriptSchema
