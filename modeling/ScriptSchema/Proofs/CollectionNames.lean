import ScriptSchema.Proofs.Integrity
import ScriptSchema.Proofs.Plural

/-!
# Resource types and the names of their collections

The resources of a type are kept in a collection that is named by the plural of the type. The type
behind a collection is looked up in the other direction, and a registered type that the name reads
as is taken, whether the name is its plural or not. So there are plurals of registered types that
are taken for those of other types, and names that are no plural behind which there is a type all
the same.

* `find?_of_resourceFor`, `resourceFor?_eq_of_find?`, `resourceFor?_eq_of_unique`: what a look-up
  finds;
* **`resourceFor?_pluralOf_iff`**: when the type is found behind its plural;
* `Schema.ReadsFairly`, **`eq_pluralOf_of_resourceFor`**: when the type that is found has this
  plural;
* `not_resourceFor?_pluralOf`, `not_eq_pluralOf_of_resourceFor`: that neither is always so.
-/

namespace ScriptSchema

theorem Directory.find?_eq_some_iff {α : Type} {d : Directory α} {key : String} {a : α} :
    d.find? key = some a ↔ (key, a) ∈ d.entries := by
  have hd : d.entries.Distinct := d.sorted.imp fun h => String.ne_of_lt h
  exact ⟨mem_of_lookup, hd.lookup_eq⟩

namespace Schema

variable {S : Schema} {name type : String} {c : Class}

/-! ## What a look-up finds -/

theorem resourceFor?_eq_of_find? (h : S.resources.find? (singularOf name) = some c) :
    S.resourceFor? name = some (singularOf name, c) := by
  rw [resourceFor?]
  simp only [h]

theorem resourceFor?_eq_find? (h : S.resources.find? (singularOf name) = none) :
    S.resourceFor? name = S.resources.entries.find? fun e => pluralOf e.1 == name := by
  rw [resourceFor?]
  simp only [h]

/-- The type that is found is registered, with the class that is found. -/
theorem find?_of_resourceFor (h : S.resourceFor? name = some (type, c)) :
    S.resources.find? type = some c := by
  rcases hs : S.resources.find? (singularOf name) with _ | c'
  · rw [resourceFor?_eq_find? hs] at h
    exact Directory.find?_eq_some_iff.2 (List.mem_of_find?_eq_some h)
  · rw [resourceFor?_eq_of_find? hs] at h
    obtain ⟨rfl, rfl⟩ := Prod.mk.inj (Option.some.inj h)
    exact hs

/-- If the name reads as no registered type, the type that is found has it as its plural. -/
theorem pluralOf_eq_of_resourceFor (hs : S.resources.find? (singularOf name) = none)
    (h : S.resourceFor? name = some (type, c)) : pluralOf type = name := by
  rw [resourceFor?_eq_find? hs] at h
  have hp := List.find?_some h
  exact eq_of_beq hp

/-- If the name reads as no registered type, the only type with this plural is found. -/
theorem resourceFor?_eq_of_unique (hs : S.resources.find? (singularOf (pluralOf type)) = none)
    (hc : S.resources.find? type = some c)
    (hu : ∀ other, S.resources.find? other ≠ none → pluralOf other = pluralOf type → other = type) :
    S.resourceFor? (pluralOf type) = some (type, c) := by
  have hmem : (type, c) ∈ S.resources.entries := Directory.find?_eq_some_iff.1 hc
  rcases hx : S.resourceFor? (pluralOf type) with _ | ⟨other, c'⟩
  · rw [resourceFor?_eq_find? hs, List.find?_eq_none] at hx
    exact absurd (beq_self_eq_true (pluralOf type)) (hx (type, c) hmem)
  · have hc' := find?_of_resourceFor hx
    obtain rfl : other = type :=
      hu other (Option.ne_none_iff_exists'.2 ⟨c', hc'⟩) (pluralOf_eq_of_resourceFor hs hx)
    rw [Option.some.inj (hc.symm.trans hc')]

/-! ## From a type to its collection and back -/

/-- **The type is found behind its plural, if no other type has this plural and none is registered
for which the plural is misread.** -/
theorem resourceFor?_pluralOf_iff (hc : S.resources.find? type = some c)
    (hu : ∀ other, S.resources.find? other ≠ none → pluralOf other = pluralOf type → other = type) :
    S.resourceFor? (pluralOf type) = some (type, c) ↔
      ∀ other, Misread type other → S.resources.find? other = none := by
  rcases hs : S.resources.find? (singularOf (pluralOf type)) with _ | c'
  · refine iff_of_true (resourceFor?_eq_of_unique hs hc hu) fun other ho => ?_
    rw [← (misread_iff.1 ho).1, hs]
  · rw [resourceFor?_eq_of_find? hs]
    constructor
    · intro h other ho
      obtain ⟨rfl, hne⟩ := misread_iff.1 ho
      rw [(Prod.mk.inj (Option.some.inj h)).1] at hne
      exact absurd rfl hne
    · intro h
      have hp : pluralOf (singularOf (pluralOf type)) = pluralOf type :=
        Decidable.byContradiction fun hne => by
          rw [h _ (misread_iff.2 ⟨rfl, hne⟩)] at hs
          nomatch hs
      have ht := hu _ (Option.ne_none_iff_exists'.2 ⟨c', hs⟩) hp
      rw [ht] at hs ⊢
      rw [Option.some.inj (hc.symm.trans hs)]

/-- Two types, of which the first one has a plural that reads as the second. -/
def toys : Schema :=
  (empty.addResource "toie" ⟨[], none⟩).addResource "toy"
    ⟨[("name", .terminal (.scalar .name) .plain)], none⟩

theorem find?_toie : toys.resources.find? "toie" = some ⟨[], none⟩ := rfl

theorem eq_of_pluralOf_toie {other : String} (ho : toys.resources.find? other ≠ none)
    (h : pluralOf other = pluralOf "toie") : other = "toie" := by
  obtain ⟨c, hc⟩ := Option.ne_none_iff_exists'.1 ho
  have hn : other ∈ ["toie", "toy"] := Directory.mem_names hc
  obtain rfl | rfl : other = "toie" ∨ other = "toy" := by simpa using hn
  · rfl
  · exact absurd h (by decide)

theorem resourceFor?_pluralOf_iff_toys :
    toys.resources.find? "toie" = some ⟨[], none⟩ ∧
      (∀ other, toys.resources.find? other ≠ none → pluralOf other = pluralOf "toie" →
        other = "toie") ∧
      (toys.resourceFor? (pluralOf "toie") = some ("toie", ⟨[], none⟩) ↔
        ∀ other, Misread "toie" other → toys.resources.find? other = none) :=
  ⟨find?_toie, fun _ => eq_of_pluralOf_toie,
    resourceFor?_pluralOf_iff find?_toie fun _ => eq_of_pluralOf_toie⟩

/-- A type may not be found behind its plural, though no other type has this plural. -/
theorem not_resourceFor?_pluralOf :
    ¬ ∀ (S : Schema) (type : String) (c : Class), S.resources.find? type = some c →
      (∀ other, S.resources.find? other ≠ none → pluralOf other = pluralOf type → other = type) →
        S.resourceFor? (pluralOf type) = some (type, c) := by
  intro h
  have hx : (toys.resourceFor? (pluralOf "toie")).map Prod.fst = some "toy" := by decide
  rw [h toys "toie" _ find?_toie fun _ => eq_of_pluralOf_toie] at hx
  exact absurd hx (by decide)

/-! ## From a collection to its type and back -/

variable (S) in
/-- The name is the plural of the word that it reads as, or reads as no registered type. -/
def ReadsFairly (name : String) : Prop :=
  IsRegularPlural name ∨ S.resources.find? (singularOf name) = none

theorem eq_pluralOf_iff_readsFairly (h : S.resourceFor? name = some (type, c)) :
    name = pluralOf type ↔ S.ReadsFairly name := by
  unfold ReadsFairly
  rw [isRegularPlural_iff]
  rcases hs : S.resources.find? (singularOf name) with _ | c'
  · exact iff_of_true (pluralOf_eq_of_resourceFor hs h).symm (.inr rfl)
  · rw [resourceFor?_eq_of_find? hs] at h
    obtain ⟨rfl, -⟩ := Prod.mk.inj (Option.some.inj h)
    simp [eq_comm]

/-- **The type that is found behind a name has it as its plural, if the name reads fairly**, and
only then. Of two names behind which there is the same type one does not. -/
theorem eq_pluralOf_of_resourceFor (S : Schema) :
    (∀ name type c, S.resourceFor? name = some (type, c) →
      (name = pluralOf type ↔ S.ReadsFairly name)) ∧
    ∀ name name' type c c', name ≠ name' → S.resourceFor? name = some (type, c) →
      S.resourceFor? name' = some (type, c') → ¬ (S.ReadsFairly name ∧ S.ReadsFairly name') := by
  refine ⟨fun name type c h => eq_pluralOf_iff_readsFairly h, ?_⟩
  rintro name name' type c c' hne h h' ⟨hr, hr'⟩
  have hn : name = pluralOf type := (eq_pluralOf_iff_readsFairly h).2 hr
  have hn' : name' = pluralOf type := (eq_pluralOf_iff_readsFairly h').2 hr'
  exact hne (hn.trans hn'.symm)

theorem exists_resourceFor?_scenes {name : String} (hn : name = "scene" ∨ name = "scenes") :
    ∃ c, scenes.resourceFor? name = some ("scene", c) := by
  have ht : (scenes.resourceFor? name).map Prod.fst = some "scene" := by
    rcases hn with rfl | rfl <;> decide
  obtain ⟨⟨type, c⟩, hc, rfl⟩ := Option.map_eq_some_iff.1 ht
  exact ⟨c, hc⟩

theorem eq_pluralOf_of_resourceFor_scenes :
    ∃ c c', "scene" ≠ "scenes" ∧ scenes.resourceFor? "scene" = some ("scene", c) ∧
      scenes.resourceFor? "scenes" = some ("scene", c') ∧
      ("scene" = pluralOf "scene" ↔ scenes.ReadsFairly "scene") ∧
      ("scenes" = pluralOf "scene" ↔ scenes.ReadsFairly "scenes") ∧
      ¬ (scenes.ReadsFairly "scene" ∧ scenes.ReadsFairly "scenes") := by
  obtain ⟨c, hc⟩ := exists_resourceFor?_scenes (.inl rfl)
  obtain ⟨c', hc'⟩ := exists_resourceFor?_scenes (.inr rfl)
  have h := eq_pluralOf_of_resourceFor scenes
  exact ⟨c, c', by decide, hc, hc', h.1 _ _ c hc, h.1 _ _ c' hc',
    h.2 _ _ _ c c' (by decide) hc hc'⟩

/-- There may be a type behind a name that is not its plural, and the same type behind two names. -/
theorem not_eq_pluralOf_of_resourceFor :
    (¬ ∀ (S : Schema) (name type : String) (c : Class), S.resourceFor? name = some (type, c) →
      name = pluralOf type) ∧
    ¬ ∀ (S : Schema) (name name' type : String) (c c' : Class),
      S.resourceFor? name = some (type, c) → S.resourceFor? name' = some (type, c') →
        name = name' := by
  obtain ⟨c, hc⟩ := exists_resourceFor?_scenes (.inl rfl)
  obtain ⟨c', hc'⟩ := exists_resourceFor?_scenes (.inr rfl)
  refine ⟨fun h => ?_, fun h => ?_⟩
  · exact absurd (h scenes _ _ c hc) (by decide)
  · exact absurd (h scenes _ _ _ c c' hc hc') (by decide)

end Schema

end ScriptSchema
