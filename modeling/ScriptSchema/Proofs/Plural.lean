import ScriptSchema.Text.Plural

/-!
# Plurals that are read back

The plural of a word is told by its ending, and so is the word that a plural belongs to. The two do
not fit together: `axe` and `ax` have one plural, `movie` comes back as `movy`, and some plurals are
read as those of a word that has another one.

* `Plural.comesBack`, **`singularOf_pluralOf_eq_self_iff`**: the words that their plurals read as;
* `ofReversed_toSingularReversed_ofReversed`: reading a plural keeps it, as a rule;
* `Misread`, **`misread_iff`**: the exceptions;
* `IsRegularPlural`, **`isRegularPlural_iff`**: plurals of which that is not so.
-/

namespace ScriptSchema

namespace Plural

variable {w : List Char}

/-! ## Endings -/

theorem ofReversed_of_isSibilant (h : isSibilant w = true) : ofReversed w = 's' :: 'e' :: w := by
  unfold ofReversed
  split
  · simp [isSibilant] at h
  · rw [if_pos h]

theorem toSingularReversed_of_isSibilant (h : isSibilant w = true) :
    toSingularReversed ('s' :: 'e' :: w) = w := by
  rw [toSingularReversed, if_pos h]
  rintro stem rfl
  simp [isSibilant] at h

theorem ofReversed_y (stem : List Char) : ofReversed ('y' :: stem) =
    if endsInVowel stem then 's' :: 'y' :: stem else 's' :: 'e' :: 'i' :: stem := rfl

theorem ofReversed_of_ne (hy : ∀ stem, w ≠ 'y' :: stem) (hs : isSibilant w = false) :
    ofReversed w = 's' :: w := by
  rw [ofReversed]
  · simp [hs]
  · exact hy

theorem isSibilant_iff : isSibilant w = true ↔
    ['x'] <+: w ∨ ['h', 'c'] <+: w ∨ ['h', 's'] <+: w ∨ ['s', 's'] <+: w := by
  fun_cases isSibilant w
  case case5 hx hch hsh hss =>
    refine iff_of_false nofun ?_
    rintro (⟨stem, rfl⟩ | ⟨stem, rfl⟩ | ⟨stem, rfl⟩ | ⟨stem, rfl⟩)
    · exact hx stem rfl
    · exact hch stem rfl
    · exact hsh stem rfl
    · exact hss stem rfl
  all_goals simp

/-! ## What comes back -/

/-- A word, read backwards, that comes back from its plural. It is not empty, and ends neither in `ie`
nor in an `e` after a sibilant, which is read as a part of the ending `es`. -/
def comesBack : List Char → Bool
  | [] => false
  | 'e' :: 'i' :: _ => false
  | 'e' :: stem => !isSibilant stem
  | _ => true

theorem comesBack_iff : comesBack w = true ↔ w ≠ [] ∧ ¬ ['e', 'i'] <+: w ∧ ¬ ['e', 'x'] <+: w ∧
    ¬ ['e', 'h', 'c'] <+: w ∧ ¬ ['e', 'h', 's'] <+: w ∧ ¬ ['e', 's', 's'] <+: w := by
  fun_cases comesBack w
  case case1 => simp
  case case2 stem => simp
  case case3 stem hi =>
    have hni : ¬ ['i'] <+: stem := fun ⟨rest, h⟩ => hi rest h.symm
    rw [Bool.not_eq_true', ← Bool.not_eq_true, isSibilant_iff]
    simp [List.cons_prefix_cons, hni]
  case case4 hne _ he =>
    have hn (ending : List Char) : ¬ 'e' :: ending <+: w := fun ⟨stem, h⟩ => he _ h.symm
    exact iff_of_true rfl ⟨hne, hn _, hn _, hn _, hn _, hn _⟩

theorem not_comesBack_cases (h : comesBack w = false) :
    w = [] ∨ (∃ stem, w = 'e' :: 'i' :: stem) ∨ ∃ stem, w = 'e' :: stem ∧ isSibilant stem = true := by
  revert h
  fun_cases comesBack w
  case case1 =>
    intro _
    exact .inl rfl
  case case2 stem =>
    intro _
    exact .inr (.inl ⟨stem, rfl⟩)
  case case3 stem _ =>
    intro hs
    exact .inr (.inr ⟨stem, rfl, by simpa using hs⟩)
  case case4 => nofun

/-- Nothing but the `s` is taken for the ending. -/
theorem toSingularReversed_s (h : comesBack w = true) : toSingularReversed ('s' :: w) = w := by
  revert h
  fun_cases comesBack w
  case case1 => nofun
  case case2 stem => nofun
  case case3 stem hi =>
    intro hs
    rw [toSingularReversed, if_neg (by simpa using hs)]
    exact hi
  case case4 hne _ he =>
    intro _
    obtain ⟨c, stem, rfl⟩ := List.exists_cons_of_ne_nil hne
    have hc : c ≠ 'e' := fun hc => he stem (congrArg (· :: stem) hc)
    rw [toSingularReversed] <;> simp [hc]

theorem toSingularReversed_ofReversed (h : comesBack w = true) :
    toSingularReversed (ofReversed w) = w := by
  fun_cases ofReversed w
  case case1 stem _ => exact toSingularReversed_s h
  case case2 stem _ => rfl
  case case3 hs => exact toSingularReversed_of_isSibilant hs
  case case4 => exact toSingularReversed_s h

theorem toSingularReversed_ofReversed_ie (stem : List Char) :
    toSingularReversed (ofReversed ('e' :: 'i' :: stem)) = 'y' :: stem := rfl

theorem toSingularReversed_ofReversed_e (h : isSibilant w = true) :
    toSingularReversed (ofReversed ('e' :: w)) = w :=
  toSingularReversed_of_isSibilant h

theorem toSingularReversed_ofReversed_eq_self_iff :
    toSingularReversed (ofReversed w) = w ↔ comesBack w = true := by
  refine ⟨fun h => ?_, toSingularReversed_ofReversed⟩
  rw [← Bool.not_eq_false]
  intro hb
  obtain rfl | ⟨stem, rfl⟩ | ⟨stem, rfl, hs⟩ := not_comesBack_cases hb
  · exact absurd h (by decide)
  · rw [toSingularReversed_ofReversed_ie] at h
    simp at h
  · rw [toSingularReversed_ofReversed_e hs] at h
    exact List.cons_ne_self _ _ h.symm

/-- A plural is that of the word which it reads as, unless its noun is empty or ends in `ie` after a
vowel. -/
theorem ofReversed_toSingularReversed_ofReversed (hne : w ≠ [])
    (hie : ∀ stem, w = 'e' :: 'i' :: stem → endsInVowel stem = false) :
    ofReversed (toSingularReversed (ofReversed w)) = ofReversed w := by
  rcases hb : comesBack w with _ | _
  · obtain rfl | ⟨stem, rfl⟩ | ⟨stem, rfl, hs⟩ := not_comesBack_cases hb
    · exact absurd rfl hne
    · rw [toSingularReversed_ofReversed_ie, ofReversed_y, hie stem rfl]
      rfl
    -- the noun ends in a silent `e`, and the word without it has the same plural
    · rw [toSingularReversed_ofReversed_e hs]
      exact ofReversed_of_isSibilant hs
  · rw [toSingularReversed_ofReversed hb]

end Plural

open Plural

variable {noun other name : String}

/-! ## Words and their plurals -/

/-- The plural of the first word reads as that of the second, which has another one: `toies` is the
plural of `toie` and reads as that of `toy`. -/
inductive Misread : String → String → Prop where
  | empty : Misread "" "s"
  | ie {stem : String} (h : endsInVowel stem.toList.reverse = true) :
    Misread (stem ++ "ie") (stem ++ "y")

theorem pluralOf_eq_iff : pluralOf noun = pluralOf other ↔
    ofReversed noun.toList.reverse = ofReversed other.toList.reverse := by
  rw [← String.toList_inj, toList_pluralOf, toList_pluralOf, List.reverse_inj]

theorem reverse_toList_singularOf_pluralOf (noun : String) :
    (singularOf (pluralOf noun)).toList.reverse =
      toSingularReversed (ofReversed noun.toList.reverse) := by
  rw [toList_singularOf, toList_pluralOf, List.reverse_reverse, List.reverse_reverse]

theorem endsWith_iff {ending : String} :
    noun.endsWith ending = true ↔ ending.toList.reverse <+: noun.toList.reverse := by
  rw [String.endsWith_eq_endsWith_toSlice, String.Slice.endsWith_string_iff, String.copy_toSlice,
    List.reverse_prefix]

/-- **A word is what its plural reads as, unless it is empty or has one of five endings.** -/
theorem singularOf_pluralOf_eq_self_iff (noun : String) : singularOf (pluralOf noun) = noun ↔
    noun ≠ "" ∧ ∀ ending ∈ ["ie", "xe", "che", "she", "sse"], ¬ noun.endsWith ending := by
  rw [← String.toList_inj, ← List.reverse_inj, reverse_toList_singularOf_pluralOf,
    toSingularReversed_ofReversed_eq_self_iff, comesBack_iff]
  simp only [List.forall_mem_cons, endsWith_iff]
  simp

example : singularOf (pluralOf "movie") = "movy" := by decide

theorem reverse_toList_ie (stem : String) :
    (stem ++ "ie").toList.reverse = 'e' :: 'i' :: stem.toList.reverse := by
  rw [String.toList_append, List.reverse_append]
  rfl

theorem reverse_toList_y (stem : String) :
    (stem ++ "y").toList.reverse = 'y' :: stem.toList.reverse := by
  rw [String.toList_append, List.reverse_append]
  rfl

theorem singularOf_pluralOf_ie (stem : String) :
    singularOf (pluralOf (stem ++ "ie")) = stem ++ "y" := by
  rw [← String.toList_inj, ← List.reverse_inj, reverse_toList_singularOf_pluralOf,
    reverse_toList_ie, reverse_toList_y, toSingularReversed_ofReversed_ie]

/-- **These are the words whose plural is read as that of a word with another plural.** -/
theorem misread_iff :
    Misread noun other ↔ singularOf (pluralOf noun) = other ∧ pluralOf other ≠ pluralOf noun := by
  constructor
  · intro h
    cases h with
    | empty => exact ⟨rfl, by decide⟩
    | @ie stem h =>
      refine ⟨singularOf_pluralOf_ie stem, fun hp => ?_⟩
      rw [pluralOf_eq_iff, reverse_toList_y, reverse_toList_ie, ofReversed_y, if_pos h,
        ofReversed_of_ne (by simp) rfl] at hp
      simp at hp
  · rintro ⟨rfl, hne⟩
    by_cases hn : noun = ""
    · subst hn
      exact .empty
    by_cases hie : ∃ stem, noun = stem ++ "ie" ∧ endsInVowel stem.toList.reverse = true
    · obtain ⟨stem, rfl, h⟩ := hie
      rw [singularOf_pluralOf_ie]
      exact .ie h
    rw [Ne, pluralOf_eq_iff, reverse_toList_singularOf_pluralOf] at hne
    refine absurd (ofReversed_toSingularReversed_ofReversed ?_ fun stem hs => ?_) hne
    · simpa using hn
    · refine Bool.eq_false_iff.2 fun h => hie ⟨.ofList stem.reverse, ?_, ?_⟩
      · rw [← String.toList_inj, ← List.reverse_inj, hs, reverse_toList_ie, String.toList_ofList,
          List.reverse_reverse]
      · rwa [String.toList_ofList, List.reverse_reverse]

/-- The plural of a word, and of the word that it reads as. -/
def IsRegularPlural (name : String) : Prop :=
  ∃ noun, name = pluralOf noun ∧ ∀ other, ¬ Misread noun other

theorem isRegularPlural_iff : IsRegularPlural name ↔ pluralOf (singularOf name) = name := by
  constructor
  · rintro ⟨noun, rfl, hn⟩
    exact Decidable.byContradiction fun hne => hn _ (misread_iff.2 ⟨rfl, hne⟩)
  · intro h
    refine ⟨singularOf name, h.symm, fun other ho => ?_⟩
    obtain ⟨rfl, hne⟩ := misread_iff.1 ho
    rw [h] at hne
    exact hne h

end ScriptSchema
