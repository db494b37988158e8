import ScriptSchema.Proofs.Conforms
import ScriptSchema.Proofs.Lookups
import ScriptSchema.Proofs.Matching

/-!
# Names, attributes and lookups

Names, simple attributes and lookups have a rule each. The rules check the first letter, blanks and
the characters in their own ways, but they are nested: an attribute could be a name, and a name is
the path of a variable. References accept no other strings than names and their special values.

* `IsIdentifier`: a letter, and letters, digits and some more characters behind it;
* `isName_iff`, `attributeProblem?_eq_none_iff`: names and attributes are identifiers;
* `IsIdentifier.isPath`: identifiers are paths;
* `name_or_special_of_problems`: the strings that a reference accepts;
* **`identifiers_nested`**: the grammar of names, and what follows for the other rules.
-/

namespace ScriptSchema

/-- An ASCII letter, and behind it any number of ASCII letters, digits and characters of `more`. -/
def IsIdentifier (more : List Char) (s : String) : Prop :=
  ∃ c cs, s.toList = c :: cs ∧ c.isAlpha = true ∧ ∀ d ∈ cs, d.isAlphanum = true ∨ d ∈ more

section Identifiers

variable {more more' : List Char} {s : String}

theorem isIdentifier_of_eq_cons {c : Char} {cs : List Char} (h : s.toList = c :: cs) :
    IsIdentifier more s ↔ c.isAlpha = true ∧ ∀ d ∈ cs, d.isAlphanum = true ∨ d ∈ more := by
  constructor
  · rintro ⟨_, _, hs, hc⟩
    obtain ⟨rfl, rfl⟩ := List.cons.inj (h.symm.trans hs)
    exact hc
  · exact fun hc => ⟨c, cs, h, hc⟩

theorem not_isIdentifier_of_eq_nil (h : s.toList = []) : ¬ IsIdentifier more s := by
  rintro ⟨_, _, hs, -⟩
  cases h.symm.trans hs

instance (more : List Char) (s : String) : Decidable (IsIdentifier more s) :=
  match h : s.toList with
  | [] => .isFalse (not_isIdentifier_of_eq_nil h)
  | c :: cs =>
    decidable_of_iff ((c.isAlpha && cs.all fun d => d.isAlphanum || more.contains d) = true)
      (by rw [isIdentifier_of_eq_cons h]; simp)

theorem isAlphanum_of_isAlpha {c : Char} (h : c.isAlpha = true) : c.isAlphanum = true :=
  Bool.or_eq_true_iff.2 (.inl h)

/-- A letter first, and then nothing but letters, digits and the characters of `more`. -/
theorem isIdentifier_iff : IsIdentifier more s ↔
    startsWithLetter s = true ∧ ∀ d ∈ s.toList, d.isAlphanum = true ∨ d ∈ more := by
  unfold startsWithLetter
  rcases hs : s.toList with _ | ⟨c, cs⟩
  · exact iff_of_false (not_isIdentifier_of_eq_nil hs) (by simp)
  · rw [isIdentifier_of_eq_cons hs, List.forall_mem_cons, List.head?_cons, Option.any_some,
      CharSet.has_letter]
    constructor
    · rintro ⟨hc, hcs⟩
      exact ⟨hc, .inl (isAlphanum_of_isAlpha hc), hcs⟩
    · rintro ⟨hc, -, hcs⟩
      exact ⟨hc, hcs⟩

theorem IsIdentifier.ne_empty (h : IsIdentifier more s) : s ≠ "" := by
  rintro rfl
  exact not_isIdentifier_of_eq_nil rfl h

theorem IsIdentifier.mono (h : IsIdentifier more s) (hm : more ⊆ more') : IsIdentifier more' s := by
  obtain ⟨c, cs, hs, hc, hcs⟩ := h
  exact ⟨c, cs, hs, hc, fun d hd => (hcs d hd).imp_right (hm ·)⟩

/-! ## Names -/

theorem accepts_nameChars_iff : Grammar.nameChars.accepts s.toList = true ↔
    s ≠ "" ∧ ∀ d ∈ s.toList, d.isAlphanum = true ∨ d ∈ ['_', '-'] := by
  rw [Grammar.nameChars, Pattern.accepts_words_iff]
  simp

/-- Names are identifiers with underscores and dashes. -/
theorem isName_iff : IsName s ↔ IsIdentifier ['_', '-'] s := by
  rw [IsName, isIdentifier_iff, accepts_nameChars_iff]
  refine and_congr_right fun hl => and_iff_right ?_
  rintro rfl
  cases hl

/-! ## Attributes -/

theorem accepts_attributeChars_iff : Grammar.attributeChars.accepts s.toList = true ↔
    ∀ d ∈ s.toList, d.isAlphanum = true ∨ d ∈ ['_'] := by
  refine ((Pattern.accepts_iff _ _).trans Pattern.reads_many_iff).trans (forall_congr' fun c => ?_)
  rw [CharSet.has_wordChar]
  simp

/-- Attributes are identifiers with underscores. -/
theorem attributeProblem?_eq_none_iff {label name : String} {v : Value} :
    Scalar.attributeProblem? label name v = none ↔ ∃ s, v = .string s ∧ IsIdentifier ['_'] s := by
  cases v with
  | string s =>
    simp only [Scalar.attributeProblem?, Value.string.injEq, exists_eq_left', isIdentifier_iff]
    rw [← accepts_attributeChars_iff]
    by_cases h : s = ""
    · subst h
      simp [startsWithLetter]
    · by_cases hl : startsWithLetter s = true
      · simp [h, hl]
      · simp [h, hl]
  | _ => simp [Scalar.attributeProblem?]

/-! ## Lookups -/

/-- Identifiers with underscores and dashes are paths. -/
theorem IsIdentifier.isPath (h : IsIdentifier ['_', '-'] s) : Scalar.IsPath s := by
  refine ⟨h.ne_empty, fun c hc => ?_⟩
  have hword := (isIdentifier_iff.1 h).2 c hc
  simp only [List.mem_cons, List.not_mem_nil, or_false] at hword
  rcases hword with hc | hc | hc
  · exact .inl hc
  · exact .inr (.inl hc)
  · exact .inr (.inr (.inr hc))

end Identifiers

/-! ## References -/

/-- A string that a reference accepts is one of its special values, or a name. -/
theorem Schema.name_or_special_of_problems {S : Schema} {d : Script} {name collection s : String}
    {special : List Special} {nullable : Bool} {info : Info}
    (h : S.problems d name (.terminal (.reference collection special nullable) info) (.string s) =
      .ok []) : (∃ x ∈ special, x.value = s) ∨ IsName s := by
  rw [problems, problemsWhile_terminal, terminalProblems_eq_nil_iff] at h
  cases h with
  | special hx => exact .inl ⟨_, hx, rfl⟩
  | named hn _ => exact .inr hn

namespace Scalar

/-- **The grammars of names, attributes and lookups are nested.** The grammar of names accepts just
the identifiers with underscores and dashes. -/
theorem identifiers_nested :
    (∀ label path v, nameProblem? label path v = none ↔
      ∃ s, v = .string s ∧ IsIdentifier ['_', '-'] s) ∧
    (∀ required required' path path' v, simpleAttribute.problem? required path v = none →
      Scalar.name.problem? required' path' v = none) ∧
    (∀ required required' path path' v, Scalar.name.problem? required path v = none →
      lookupable.problem? required' path' v = none) ∧
    ∀ (S : Schema) d path collection special nullable info s,
      S.problems d path (.terminal (.reference collection special nullable) info) (.string s) =
        .ok [] →
      (∃ x : Special, x ∈ special ∧ x.value = s) ∨
        ∀ required path', Scalar.name.problem? required path' (.string s) = none := by
  refine ⟨fun label path v => ?_, fun _ _ path path' v h => ?_, fun _ _ path path' v h => ?_,
    fun S d path collection special nullable info s h => ?_⟩
  · simp only [nameProblem?_eq_none_iff, isName_iff]
  · obtain ⟨s, rfl, hs⟩ := attributeProblem?_eq_none_iff.1 h
    have hmore : ['_'] ⊆ ['_', '-'] := by simp
    exact nameProblem?_eq_none_iff.2 ⟨s, rfl, isName_iff.2 (hs.mono hmore)⟩
  · obtain ⟨s, rfl, hs⟩ := nameProblem?_eq_none_iff.1 h
    exact lookupProblem?_eq_none_iff.2 (.inr (isName_iff.1 hs).isPath)
  · refine (Schema.name_or_special_of_problems h).imp_right fun hs _ _ => ?_
    exact nameProblem?_eq_none_iff.2 ⟨s, rfl, hs⟩

/-- A cast with a single role. -/
def cast : Script := ⟨[("roles", .array [.object [("name", .string "eve")]])]⟩

/-- An attribute is a name and a path too; the role is referred to by its name, since it is not the
special value. -/
theorem identifiers_nested_roles :
    (simpleAttribute.problem? true "attribute" (.string "num_points") = none ∧
      Scalar.name.problem? true "name" (.string "num_points") = none ∧
      lookupable.problem? false "title" (.string "num_points") = none) ∧
    Schema.empty.problems cast "role" (.terminal (.reference "roles" [⟨"all", none⟩] false) .plain)
      (.string "eve") = .ok [] ∧
    ((∃ x : Special, x ∈ [⟨"all", none⟩] ∧ x.value = "eve") ∨
      ∀ required path, Scalar.name.problem? required path (.string "eve") = none) := by
  have hattribute : simpleAttribute.problem? true "attribute" (.string "num_points") = none := by
    rw [problem?, attributeProblem?_eq_none_iff]
    exact ⟨"num_points", rfl, by decide⟩
  have hname := identifiers_nested.2.1 true true "attribute" "name" _ hattribute
  have hrole : Schema.empty.problems cast "role"
      (.terminal (.reference "roles" [⟨"all", none⟩] false) .plain) (.string "eve") = .ok [] := by
    rw [Schema.problems, Schema.problemsWhile_terminal, Schema.terminalProblems_eq_nil_iff]
    exact .named (isName_iff.2 (by decide)) (by decide)
  exact ⟨⟨hattribute, hname, identifiers_nested.2.2.1 true false "name" "title" _ hname⟩, hrole,
    identifiers_nested.2.2.2 _ _ _ _ _ _ _ _ hrole⟩

end Scalar

end ScriptSchema
