import ScriptSchema.Proofs.Apart
import ScriptSchema.Proofs.Completion
import ScriptSchema.Proofs.Instances
import ScriptSchema.Proofs.Selection

/-!
# What the queries list

A walk goes through a script from the first resource to the last. The queries for what refers to
something gather the places of what the walk sees and look up the resources there. In the end every
such resource is listed, and only once.

* `pairwise_eraseDups`, `forall₂_filterMap`: lists of first mentions, and of what is looked up;
* `Script.Precedes`, `findings_inOrder`: the walk never goes back;
* `Script.Lists`, `lists_resourcesAt`: resources in the order of the script, none twice;
* `forall₂_instances`: one instance for each visit;
* `Schema.Answers`, **`answers_of_check`**: what the queries answer.
-/

namespace ScriptSchema

/-! ## Lists -/

section Lists

variable {α β : Type}

/-- If every member is the same as those after it or comes before them, the members come before each
other when each is kept where it is mentioned first. -/
theorem pairwise_eraseDups [DecidableEq α] {r : α → α → Prop} :
    (as : List α) → as.Pairwise (fun a b => a = b ∨ r a b) → as.eraseDups.Pairwise r
  | [], _ => .nil
  | a :: as, h => by
    obtain ⟨ha, has⟩ := List.pairwise_cons.1 h
    rw [List.eraseDups_cons]
    refine .cons (fun b hb => ?_) (pairwise_eraseDups _ (has.filter _))
    obtain ⟨hb, hne⟩ := List.mem_filter.1 (List.mem_eraseDups.1 hb)
    exact (ha b hb).resolve_left fun he => by simp [he] at hne
termination_by as => as.length
decreasing_by exact Nat.lt_succ_of_le (List.length_filter_le _ _)

/-- What is found for every member stands in the order of the members. -/
theorem forall₂_filterMap {f : α → Option β} {as : List α} (h : ∀ a ∈ as, (f a).isSome = true) :
    List.Forall₂ (fun a b => f a = some b) as (as.filterMap f) := by
  induction as with
  | nil => exact .nil
  | cons a as ih =>
    obtain ⟨ha, has⟩ := List.forall_mem_cons.1 h
    obtain ⟨b, hb⟩ := Option.isSome_iff_exists.1 ha
    rw [List.filterMap_cons_some hb]
    exact .cons hb (ih has)

theorem pairwise_idxOf {keys : List String} (h : keys.Nodup) :
    keys.Pairwise fun k l => keys.idxOf k < keys.idxOf l := by
  refine List.pairwise_iff_getElem.2 fun i j hi hj hij => ?_
  rwa [h.idxOf_getElem i hi, h.idxOf_getElem j hj]

end Lists

/-! ## The order of a script -/

/-- The first place comes before the second: in an earlier collection, or earlier in the same
one. -/
def Script.Precedes (d : Script) (p q : Place) : Prop :=
  d.entries.keys.idxOf p.collection < d.entries.keys.idxOf q.collection ∨
    p.collection = q.collection ∧ p.index < q.index

/-- These are the resources at the places with a property, with their collections: all of them, each
once, in the order of the script. -/
def Script.Lists (d : Script) (wanted : Place → Prop) (found : List (String × Value)) : Prop :=
  ∃ places : List Place, places.Pairwise d.Precedes ∧ (∀ place, place ∈ places ↔ wanted place) ∧
    List.Forall₂ (fun place x => x.1 = place.collection ∧ d.resourceAt? place = some x.2)
      places found

/-- The instance is the visited part, and its resource the one at the place of that. -/
structure Instance.IsAt (d : Script) (f : Finding) (i : Instance) : Prop where
  place : i.place = f.place
  path : i.path = f.visit.path
  value : i.value = f.visit.value
  resource : d.resourceAt? i.place = some i.resource

theorem Script.Lists.congr {d : Script} {wanted wanted' : Place → Prop}
    {found : List (String × Value)} (h : d.Lists wanted found)
    (hw : ∀ place, wanted place ↔ wanted' place) : d.Lists wanted' found :=
  let ⟨places, hp, hmem, hx⟩ := h
  ⟨places, hp, fun place => (hmem place).trans (hw place), hx⟩

/-- The resources at some places that do not go back are listed in order. -/
theorem Script.lists_resourcesAt {d : Script} {places : List Place}
    (hp : places.Pairwise fun p q => p = q ∨ d.Precedes p q)
    (hr : ∀ place ∈ places, (d.resourceAt? place).isSome = true) :
    d.Lists (· ∈ places) (d.resourcesAt places) := by
  refine ⟨places.eraseDups, pairwise_eraseDups places hp, fun _ => List.mem_eraseDups, ?_⟩
  have hsome (place) (h : place ∈ places.eraseDups) :
      ((d.resourceAt? place).map (place.collection, ·)).isSome = true := by
    rw [Option.isSome_map]
    exact hr place (List.mem_eraseDups.1 h)
  refine (forall₂_filterMap hsome).imp fun place x hx => ?_
  obtain ⟨resource, hres, rfl⟩ := Option.map_eq_some_iff.1 hx
  exact ⟨rfl, hres⟩

namespace Schema

variable {S : Schema} {d : Script}

/-! ## The walk never goes back -/

theorem collection_entryFindings (focus : Focus) (entry : String × Value) :
    (S.entryFindings focus entry).Sees fun f => f.place.collection = entry.1 := by
  by_cases h : ∃ c vs, S.Collects entry c vs
  · obtain ⟨c, vs, h⟩ := h
    rw [entryFindings_of_collects h]
    exact .each fun m _ => Trace.sees_map.2 fun _ _ => rfl
  · rw [entryFindings_of_not_collects fun c vs hc => h ⟨c, vs, hc⟩]
    exact Trace.sees_nil

/-- Within an entry, the walk goes from one resource to the next. -/
theorem entryFindings_inOrder (focus : Focus) (entry : String × Value) :
    (S.entryFindings focus entry).seen.Pairwise fun f g =>
      f.place = g.place ∨ d.Precedes f.place g.place := by
  by_cases h : ∃ c vs, S.Collects entry c vs
  · obtain ⟨c, vs, h⟩ := h
    rw [entryFindings_of_collects h]
    refine Trace.pairwise_each (fun m _ => ?_)
      ((pairwise_lt_zipIdx vs).imp fun hlt f hf g hg => ?_)
    · exact List.pairwise_map.2 (List.pairwise_of_forall fun _ _ => .inl rfl)
    · obtain ⟨_, -, rfl⟩ := List.mem_map.1 hf
      obtain ⟨_, -, rfl⟩ := List.mem_map.1 hg
      exact .inr (.inr ⟨rfl, hlt⟩)
  · rw [entryFindings_of_not_collects fun c vs hc => h ⟨c, vs, hc⟩]
    exact .nil

/-- **What a walk through a script sees later does not lie in an earlier resource.** -/
theorem findings_inOrder (hd : d.entries.Distinct) (focus : Focus) :
    (S.findings focus d).seen.Pairwise fun f g =>
      f.place = g.place ∨ d.Precedes f.place g.place := by
  have hentries : d.entries.Pairwise fun e e' =>
      d.entries.keys.idxOf e.1 < d.entries.keys.idxOf e'.1 :=
    (pairwise_idxOf hd).of_map Prod.fst fun _ _ h => h
  refine Trace.pairwise_each (fun entry _ => entryFindings_inOrder focus entry)
    (hentries.imp fun {e e'} hlt f hf g hg => .inr (.inl ?_))
  rwa [collection_entryFindings focus e f hf, collection_entryFindings focus e' g hg]

/-- Whatever is read from the findings and picked, its resources are listed in order. -/
theorem lists_findings {β : Type} (hd : d.entries.Distinct) {focus : Focus}
    (he : (S.findings focus d).error = none) (place : β → Place) {g : Finding → Option β}
    (hg : ∀ f b, g f = some b → place b = f.place) (p : β → Bool) :
    d.Lists (fun q => ∃ b ∈ (S.findings focus d).seen.filterMap g, p b = true ∧ place b = q)
      (d.resourcesAt ((((S.findings focus d).seen.filterMap g).filter p).map place)) := by
  have hresource := (resourceAt?_findings hd he).2
  refine (Script.lists_resourcesAt ?_ (List.forall_mem_map.2 fun b hb => ?_)).congr fun q => ?_
  · have horder : ((S.findings focus d).seen.filterMap g).Pairwise fun b c =>
        place b = place c ∨ d.Precedes (place b) (place c) := by
      refine (findings_inOrder hd focus).filterMap g fun f f' hff b hb b' hb' => ?_
      rwa [hg f b hb, hg f' b' hb']
    exact List.pairwise_map.2 (horder.filter p)
  · obtain ⟨f, hf, hb⟩ := List.mem_filterMap.1 (List.mem_of_mem_filter hb)
    rw [hg f b hb]
    exact hresource f hf
  · simp only [List.mem_map, List.mem_filter, and_assoc]

/-! ## The queries -/

/-- The resources that refer to a resource are those with a reference to it. -/
theorem lists_referrers (hd : d.entries.Distinct) (he : (S.findings .reference d).error = none)
    (collection name : String) :
    ∃ refs found, S.references d = .ok refs ∧ S.referrers d collection name = .ok found ∧
      d.Lists (fun place => ∃ x ∈ refs,
        x.origin = place ∧ x.collection = collection ∧ x.name = name) found := by
  have horigin (f : Finding) (x : Reference) (hx : f.reference? = some x) : x.origin = f.place := by
    obtain ⟨_, -, rfl⟩ := Option.map_eq_some_iff.1 hx
    rfl
  have hrefs := references_eq he
  have hlists := lists_findings hd he Reference.origin horigin fun r =>
    r.collection == collection && r.name == name
  have hfound : S.referrers d collection name = .ok _ := congrArg (Except.map _) hrefs
  refine ⟨_, _, hrefs, hfound, hlists.congr fun place => exists_congr fun x => ?_⟩
  rw [Bool.and_eq_true_iff, beq_iff_eq, beq_iff_eq]
  tauto

theorem refersTo_iff (visit : Visit) (kind : String) (id : Int) :
    visit.refersTo kind id = true ↔
      (∃ info, visit.spec = .terminal (.instanceId kind) info) ∧ visit.value.int64? = some id := by
  unfold Visit.refersTo
  split
  · rename_i k info hs
    simp [hs]
  · rename_i hs
    simp only [Bool.false_eq_true, false_iff, not_and]
    rintro ⟨info, h⟩
    exact absurd h (hs kind info)

/-- The resources that refer to an instance are those in which its id is visited. -/
theorem lists_instanceReferrers (hd : d.entries.Distinct)
    (he : (S.findings .instanceId d).error = none) (kind : String) (id : Int) :
    ∃ found, S.instanceReferrers d kind id = .ok found ∧
      d.Lists (fun place => ∃ f ∈ (S.findings .any d).seen, f.place = place ∧
        (∃ info, f.visit.spec = .terminal (.instanceId kind) info) ∧
        f.visit.value.int64? = some id) found := by
  have hlists := lists_findings hd he Finding.place (g := some)
    (fun f b hb => congrArg Finding.place (Option.some.inj hb).symm) (·.visit.refersTo kind id)
  rw [List.filterMap_some] at hlists
  have hresult : (S.findings .instanceId d).result = .ok (S.findings .instanceId d).seen := by
    rw [Trace.result, he]
  have hfound : S.instanceReferrers d kind id = .ok _ := congrArg (Except.map _) hresult
  refine ⟨_, hfound, hlists.congr fun place => exists_congr fun f => ?_⟩
  rw [mem_findings_iff, refersTo_iff]
  constructor
  · rintro ⟨⟨hf, -⟩, hr, hp⟩
    exact ⟨hf, hp, hr⟩
  · rintro ⟨hf, hp, hr⟩
    refine ⟨⟨hf, ?_⟩, hr, hp⟩
    obtain ⟨place, owner, path, spec, onKey, v⟩ := f
    obtain ⟨⟨info, rfl⟩, -⟩ := hr
    rfl

/-- There is one instance for each visit. -/
theorem forall₂_instances (hd : d.entries.Distinct) {kind : String} {is : List Instance}
    (h : S.instances d kind = .ok is) :
    List.Forall₂ (Instance.IsAt d) (S.findings (.component kind) d).seen is := by
  obtain ⟨-, he, rfl⟩ := instances_eq_ok_iff.1 h
  have hkeys : (S.findings (.component kind) d).seen.filter (!·.visit.onKey) =
      (S.findings (.component kind) d).seen := by
    refine List.filter_eq_self.2 fun f hf => ?_
    -- keys of dictionaries are terminal values, and no instances
    obtain ⟨-, hsel⟩ := (mem_findings_iff S _).1 hf
    obtain ⟨place, owner, path, spec, onKey, v⟩ := f
    cases spec with
    | component k info => exact (Bool.and_eq_true_iff.1 hsel).1
    | _ => nomatch hsel
  rw [hkeys]
  refine (forall₂_filterMap fun f hf => ?_).imp fun f i hi => ?_
  · rw [Option.isSome_map]
    exact (resourceAt?_findings hd he).2 f hf
  · obtain ⟨resource, hr, rfl⟩ := Option.map_eq_some_iff.1 hi
    exact ⟨rfl, rfl, rfl, hr⟩

/-- What the queries about a script answer. -/
structure Answers (S : Schema) (d : Script) : Prop where
  /-- The resources that refer to a resource are those with a reference to it. -/
  byName : ∀ collection name, ∃ refs found, S.references d = .ok refs ∧
    S.referrers d collection name = .ok found ∧
    d.Lists (fun place => ∃ x ∈ refs, x.origin = place ∧ x.collection = collection ∧ x.name = name)
      found
  /-- The resources that refer to an instance are those in which an id of its kind is visited that
  is the same whole number. -/
  byId : ∀ kind id, ∃ found, S.instanceReferrers d kind id = .ok found ∧
    d.Lists (fun place => ∃ f ∈ (S.findings .any d).seen, f.place = place ∧
      (∃ info, f.visit.spec = .terminal (.instanceId kind) info) ∧
      f.visit.value.int64? = some id) found
  /-- The instances of a component are the parts that a walk to them visits. -/
  instances : ∀ kind, S.Registers kind → ∃ is, S.instances d kind = .ok is ∧
    List.Forall₂ (Instance.IsAt d) (S.findings (.component kind) d).seen is

theorem answers_of_returns (hS : S.Sound) (hd : d.entries.Distinct)
    (h : S.ResourcesReturn d .walk) : S.Answers d := by
  have herror (focus : Focus) : (S.findings focus d).error = none :=
    (error_findings_iff_returns hS focus).2 h
  refine ⟨lists_referrers hd (herror .reference),
    lists_instanceReferrers hd (herror .instanceId), fun kind hk => ?_⟩
  have his := instances_eq_ok_iff.2 ⟨hk, herror (.component kind), rfl⟩
  exact ⟨_, his, forall₂_instances hd his⟩

/-- Where the queries answer, the walk to the references has come to its end. -/
theorem Answers.error_findings (h : S.Answers d) : (S.findings .reference d).error = none := by
  obtain ⟨_, _, hrefs, -, -⟩ := h.byName "" ""
  obtain ⟨_, hresult, -⟩ := map_eq_ok_iff.1 hrefs
  rw [Trace.result] at hresult
  rcases he : (S.findings .reference d).error with _ | e
  · rfl
  · rw [he] at hresult
    cases hresult

/-- **The queries list what they are asked for, in the order of the script and each resource once**,
whenever the walk through the script ends, and so always if no component hands a value on to
itself. -/
theorem answers_of_check (h : S.check = .ok ()) (hd : d.entries.Distinct) :
    (S.Answers d ↔ ∀ kind, (S.findings .any d).error ≠ some (.circular kind)) ∧
      (S.Answers d ↔ S.ResourcesReturn d .walk) ∧ (S.Grounded → S.Answers d) := by
  have hS : S.Sound := S.sound_of_check h
  have hreturns : S.Answers d ↔ S.ResourcesReturn d .walk :=
    ⟨fun ha => (error_findings_iff_returns hS .reference).1 ha.error_findings,
      answers_of_returns hS hd⟩
  refine ⟨⟨fun ha kind he => ?_, fun hne => ?_⟩, hreturns,
    fun hg => hreturns.2 (resourcesReturn_of_grounded hg .walk)⟩
  · have hnone := (error_findings_iff_returns hS .any).2 (hreturns.1 ha)
    exact absurd (hnone.symm.trans he) (Option.some_ne_none _).symm
  · refine hreturns.2 ((error_findings_iff_returns hS .any).1 ?_)
    rcases he : (S.findings .any d).error with _ | e
    · rfl
    · obtain ⟨kind, rfl⟩ := findings_blameless hS .any d e (by rw [Trace.result, he])
      exact absurd he (hne kind)

theorem answers_twoScenes : scenes.check = .ok () ∧ twoScenes.entries.Distinct ∧
    scenes.Grounded ∧ scenes.Answers twoScenes :=
  have hd : twoScenes.entries.Distinct := by decide
  ⟨rfl, hd, grounded_scenes, (answers_of_check rfl hd).2.2 grounded_scenes⟩

-- the second scene is the next one of the first, and a cue of the first comes after its cue 1
example : (scenes.referrers twoScenes "scenes" "eve").map (List.map Prod.fst) = .ok ["scenes"] ∧
    (scenes.instanceReferrers twoScenes "cue" 1).map (List.map Prod.fst) = .ok ["scenes"] := by
  constructor <;> cbv

end Schema

end ScriptSchema
