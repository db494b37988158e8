import Mathlib.Tactic.SplitIfs
import ScriptSchema.Proofs.Conformance
import ScriptSchema.Proofs.Haul
import ScriptSchema.Proofs.ReadBack

/-!
# What occurs more than once

A name or an id is reported at every occurrence but its first one. Which occurrence is the first
depends on the order, but neither how many reports there are nor what they say.

* `repeats`: the members of a list whose key has occurred before;
* **`map_repeats_perm`**: their reports do not depend on the order;
* `haul_memberIssues`: the issues of a collection, names apart from the rest;
* `map_message_repeatedIds`, **`haul_duplicateIdMessages`**: the messages about ids.
-/

namespace ScriptSchema

variable {α β : Type}

/-- The members of a list whose key is among those before it. -/
def repeats (key : α → String) (before : List String) : List α → List α
  | [] => []
  | a :: as => (if key a ∈ before then [a] else []) ++ repeats key (key a :: before) as

/-- Of what came before, only the keys count. -/
theorem repeats_congr (key : α → String) {before before' : List String}
    (h : ∀ k, k ∈ before ↔ k ∈ before') (as : List α) :
    repeats key before as = repeats key before' as := by
  induction as generalizing before before' with
  | nil => rfl
  | cons a as ih =>
    have hcons : ∀ k, k ∈ key a :: before ↔ k ∈ key a :: before' := by
      intro k
      rw [List.mem_cons, List.mem_cons, h]
    rw [repeats, repeats, ih hcons]
    simp only [h]

/-- **What is said of repeated members does not depend on the order**, if it is told by their
keys. -/
theorem map_repeats_perm {key : α → String} {f : α → β} (hf : ∀ a b, key a = key b → f a = f b)
    {as bs : List α} (h : as.Perm bs) (before : List String) :
    ((repeats key before as).map f).Perm ((repeats key before bs).map f) := by
  induction h generalizing before with
  | nil => exact .refl _
  | cons a _ ih =>
    rw [repeats, repeats, List.map_append, List.map_append]
    exact (ih _).append_left _
  | swap a b as =>
    have hrest : repeats key (key a :: key b :: before) as =
        repeats key (key b :: key a :: before) as :=
      repeats_congr key (fun k => by simp only [List.mem_cons, or_left_comm]) as
    simp only [repeats, hrest, List.map_append, ← List.append_assoc]
    refine List.Perm.append_right _ ?_
    by_cases hk : key a = key b
    · have hfirst : (if key b ∈ before then [b] else []).map f =
          (if key b ∈ before then [a] else []).map f := by
        split_ifs
        · rw [List.map_singleton, List.map_singleton, hf a b hk]
        · rfl
      simp [hk, hf a b hk, hfirst]
    · simp only [List.mem_cons, hk, Ne.symm hk, false_or]
      exact List.perm_append_comm
  | trans _ _ ih ih' => exact (ih before).trans (ih' before)

namespace Schema

variable {S : Schema} {d e : Script}

/-! ## Names -/

/-- The issue of a name that has occurred before. -/
def duplicateName (collection name : String) : Issue :=
  ⟨collection, collection, s!"Duplicate names: {name}"⟩

theorem map_repeats_names (collection : String) (before : List String) (v : Value)
    (vs : List Value) :
    (repeats id before ((v :: vs).filterMap nameOf?)).map (duplicateName collection) =
      repeatedName collection before v ++ (repeats id ((nameOf? v).toList ++ before)
        (vs.filterMap nameOf?)).map (duplicateName collection) := by
  rw [repeatedName]
  rcases hn : nameOf? v with _ | name
  · rw [List.filterMap_cons_none hn]
    rfl
  · rw [List.filterMap_cons_some hn, repeats, List.map_append, id_eq]
    dsimp only
    by_cases hb : name ∈ before
    · rw [if_pos hb, if_pos (List.contains_iff_mem.2 hb)]
      rfl
    · rw [if_neg hb, if_neg (mt List.contains_iff_mem.1 hb)]
      rfl

/-- What is wrong in a collection: repeated names, and what is wrong with each resource. -/
theorem haul_memberIssues (d : Script) (collection : String) (before : List String)
    (vs : List Value) :
    Search.haul (S.memberIssues d collection before vs) =
      Search.haul (Search.both
        (.ok ((repeats id before (vs.filterMap nameOf?)).map (duplicateName collection)))
        (Search.gather (vs.map (S.resourceIssues d collection)))) := by
  induction vs generalizing before with
  | nil => rfl
  | cons v vs ih =>
    rw [memberIssues_cons, map_repeats_names, List.map_cons, Search.gather]
    simp only [Search.haul_both, ih]
    rcases Search.haul (S.resourceIssues d collection v) with _ | own
    · rfl
    rcases Search.haul (Search.gather (vs.map (S.resourceIssues d collection))) with _ | others
    · rfl
    simp only [Search.haul, Option.map₂_some_some, ← Multiset.coe_add, Option.some.injEq]
    exact add_add_add_comm _ _ _ _

/-! ## Ids -/

/-- The message about an id that has occurred before. -/
def duplicateIdMessage (kind shown : String) : String := s!"Duplicate id in {kind}: {shown}"

theorem map_message_repeatedIds (kind field : String) (before : List String)
    (is : List Instance) :
    (repeatedIds kind field before is).map Issue.message =
      (repeats Value.text before (is.filterMap (countedId? field))).map
        fun id => duplicateIdMessage kind id.shown := by
  induction is generalizing before with
  | nil => rfl
  | cons i is ih =>
    rw [repeatedIds]
    rcases hi : countedId? field i with _ | id
    · rw [List.filterMap_cons_none hi]
      exact ih before
    · rw [List.filterMap_cons_some hi, repeats, List.map_append, List.map_append, ih]
      by_cases hb : id.text ∈ before
      · rw [if_pos hb, if_pos (List.contains_iff_mem.2 hb)]
        rfl
      · rw [if_neg hb, if_neg (mt List.contains_iff_mem.1 hb)]
        rfl

/-- **The messages about ids are told by the ids, in whatever order.** -/
theorem haul_duplicateIdMessages {kind field : String}
    (h : Search.haul ((S.instances d kind).map (List.filterMap (countedId? field))) =
      Search.haul ((S.instances e kind).map (List.filterMap (countedId? field)))) :
    Search.haul ((S.duplicateIdIssues d kind field).map (List.map Issue.message)) =
      Search.haul ((S.duplicateIdIssues e kind field).map (List.map Issue.message)) := by
  have hids (d : Script) : (S.duplicateIdIssues d kind field).map (List.map Issue.message) =
      ((S.instances d kind).map (List.filterMap (countedId? field))).map
        fun ids => (repeats Value.text [] ids).map fun id => duplicateIdMessage kind id.shown := by
    rw [duplicateIdIssues]
    rcases S.instances d kind with _ | is
    · rfl
    · simp only [Except.map, map_message_repeatedIds]
  have hsame (v w : Value) (hvw : v.text = w.text) :
      duplicateIdMessage kind v.shown = duplicateIdMessage kind w.shown :=
    congrArg (duplicateIdMessage kind) (Value.shown_eq_of_text_eq hvw)
  rw [hids, hids]
  exact Search.haul_map_of_haul_eq (fun _ _ hp => map_repeats_perm hsame hp []) h

end Schema

end ScriptSchema
