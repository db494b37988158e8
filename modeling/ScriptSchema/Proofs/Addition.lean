import ScriptSchema.Proofs.Instances
import ScriptSchema.Proofs.Member
import ScriptSchema.Proofs.Transfer

/-!
# Adding a resource

A script to which a resource is added has all the names and instances that it had before, so that
no reference in it is lost. What can go wrong is wrong with the new resource: its problems, its
name, or the ids of its instances.

* `array?_push`, `mem_names_push`, `defines_push`: what is there;
* `haul_sights_push`, `perm_instances_push`: walks through the script with the resource;
* `duplicateIdIssues_push_iff`: when the ids stay unique;
* `fits_push`, `classProblems_push`: old resources stay without problems;
* `Schema.Addable`: what is asked of the new resource;
* **`validate_push_iff`**: when the script with the resource is accepted.
-/

namespace ScriptSchema

/-! ## The script with the resource -/

namespace Script

variable {d : Script} {name : String} {v : Value}

theorem mem_names_iff {key : String} :
    key ∈ d.names ↔ (d.get? key).isSome = true ∧ key ≠ metaKey := by
  rw [names, List.mem_filter, ← Entries.has_iff, bne_iff_ne]
  rfl

theorem get?_push (key : String) :
    (d.push name v).get? key =
      if key = name then some (.array (d.collection name ++ [v])) else d.get? key :=
  get?_put d name key _

theorem array?_push (key : String) :
    (d.push name v).array? key =
      if key = name then some (d.collection name ++ [v]) else d.array? key := by
  rw [array?, get?_push]
  split <;> rfl

theorem distinct_push (hd : d.entries.Distinct) : (d.push name v).entries.Distinct :=
  hd.put name _

theorem mem_names_push (hm : name ≠ metaKey) {key : String} :
    key ∈ (d.push name v).names ↔ key = name ∨ key ∈ d.names := by
  rw [mem_names_iff, mem_names_iff, get?_push]
  by_cases hk : key = name
  · simp [hk, hm]
  · simp [hk]

theorem mem_collection_push : v ∈ (d.push name v).collection name := by
  rw [collection_push, if_pos rfl]
  exact List.mem_append_right _ List.mem_cons_self

/-- Names that are defined stay so. -/
theorem defines_push {collection n : String} (h : d.defines collection n = true) :
    (d.push name v).defines collection n = true := by
  obtain ⟨w, hw, hn⟩ := (d.defines_iff collection n).1 h
  refine (defines_iff _ collection n).2 ⟨w, ?_, hn⟩
  rw [collection_push]
  split
  · rename_i hk
    exact List.mem_append_left _ (hk ▸ hw)
  · exact hw

/-- The entry of the name is a collection, if there is one. -/
def Takes (d : Script) (name : String) : Prop :=
  d.get? name = none ∨ ∃ vs, d.get? name = some (.array vs)

/-- The collection is new, or it has one more resource. -/
theorem entries_push_cases (h : d.Takes name) (v : Value) :
    (d.push name v).entries = d.entries ++ [(name, .array [v])] ∨
      ∃ vs before after, d.entries = before ++ (name, .array vs) :: after ∧
        (d.push name v).entries = before ++ (name, .array (vs ++ [v])) :: after := by
  rcases h with h | ⟨vs, h⟩
  · have hc : d.collection name = [] := by
      rw [collection, array?, h]
      rfl
    refine .inl ?_
    rw [push, hc]
    exact Entries.put_eq_append h _
  · have hc : d.collection name = vs := by
      rw [collection, array?, h]
      rfl
    obtain ⟨before, after, he, hp⟩ := Entries.put_eq h (.array (vs ++ [v]))
    refine .inr ⟨vs, before, after, he, ?_⟩
    rw [push, hc]
    exact hp

end Script

namespace Schema

variable {S : Schema} {d : Script} {name type : String} {c : Class} {v : Value}

/-! ## Walks and instances -/

variable (S) in
/-- The ids that count of the instances in a resource, which is described by a class. -/
def idsWithin (c : Class) (kind field : String) (v : Value) : List Value :=
  (S.fieldVisits (.component kind) "" c.fields v).seen.filterMap (visitedId? field)

section Push

variable (hd : d.entries.Distinct) (hm : name ≠ Script.metaKey)
  (hc : S.resourceFor? name = some (type, c)) (ht : d.Takes name)
include hm hc ht

/-- A walk visits what it visited before, and what there is in the resource. -/
theorem haul_sights_push (v : Value) (focus : Focus) :
    Search.haul (S.sights focus (d.push name v)) =
      Option.map₂ (· + ·) (Search.haul (S.sights focus d))
        (Search.haul (S.fieldVisits focus "" c.fields v).result) := by
  have hone : S.entrySights focus (name, .array [v]) =
      (S.fieldVisits focus "" c.fields v).result := by
    rw [entrySights_array focus hm hc, List.map_singleton, Search.gather_singleton]
  rw [sights_eq, sights_eq, ← Search.haul_both]
  rcases Script.entries_push_cases ht v with h | ⟨vs, before, after, h, h'⟩
  · rw [h, List.map_append, Search.gather_append, List.map_singleton, Search.gather_singleton, hone]
  · have hmore : S.entrySights focus (name, .array (vs ++ [v])) =
        Search.both (S.entrySights focus (name, .array vs))
          (S.fieldVisits focus "" c.fields v).result := by
      rw [entrySights_array focus hm hc, entrySights_array focus hm hc, List.map_append,
        Search.gather_append, List.map_singleton, Search.gather_singleton]
    rw [h, h', List.map_append, List.map_append, List.map_cons, List.map_cons, hmore]
    exact Search.haul_gather_both _ _ _ _

include hd

/-- What is read from the instances, likewise. -/
theorem haul_instances_push {β : Type} (v : Value) (kind : String) (g : Value → Option β) :
    Search.haul ((S.instances (d.push name v) kind).map (List.filterMap fun i => g i.value)) =
      Option.map₂ (· + ·)
        (Search.haul ((S.instances d kind).map (List.filterMap fun i => g i.value)))
        (Search.haul ((S.fieldVisits (.component kind) "" c.fields v).result.map
          (List.filterMap fun visit => if visit.onKey then none else g visit.value))) := by
  rw [map_instances (Script.distinct_push hd), map_instances hd]
  rcases S.component kind with e | k
  · rfl
  · change Search.haul (Except.map _ _) = Option.map₂ _ (Search.haul (Except.map _ _)) _
    rw [Search.haul_filterMap, Search.haul_filterMap, Search.haul_filterMap,
      haul_sights_push hm hc ht]
    exact Option.map_map₂_distrib (Multiset.filterMap_add _)

/-- If the walk through the resource comes to its end, the instances are those that there were, and
those in the resource. -/
theorem perm_instances_push {β : Type} {kind : String}
    (hv : (S.fieldVisits (.component kind) "" c.fields v).error = none) {is : List Instance}
    (hi : S.instances d kind = .ok is) (g : Value → Option β) :
    ∃ is', S.instances (d.push name v) kind = .ok is' ∧
      (is'.filterMap fun i => g i.value).Perm ((is.filterMap fun i => g i.value) ++
        (S.fieldVisits (.component kind) "" c.fields v).seen.filterMap fun visit =>
          if visit.onKey then none else g visit.value) := by
  have hx := haul_instances_push hd hm hc ht v kind g
  have hwalk : (S.fieldVisits (.component kind) "" c.fields v).result =
      .ok (S.fieldVisits (.component kind) "" c.fields v).seen := by
    rw [Trace.result, hv]
  rw [hi, hwalk] at hx
  obtain ⟨bs, hbs, hp⟩ := Search.haul_eq_some_iff.1 hx
  obtain ⟨is', hi', rfl⟩ := map_eq_ok_iff.1 hbs
  exact ⟨is', hi', Multiset.coe_eq_coe.1 hp⟩

/-- The ids stay unique if those in the resource are, also among those that there are. -/
theorem duplicateIdIssues_push_iff {kind field : String}
    (hv : (S.fieldVisits (.component kind) "" c.fields v).error = none) {is : List Instance}
    (hi : S.instances d kind = .ok is)
    (hnodup : ((is.filterMap (countedId? field)).map Value.text).Nodup) :
    S.duplicateIdIssues (d.push name v) kind field = .ok [] ↔
      ((S.idsWithin c kind field v).map Value.text).Nodup ∧
        ∀ text ∈ (S.idsWithin c kind field v).map Value.text,
          text ∉ (is.filterMap (countedId? field)).map Value.text := by
  obtain ⟨is', hi', hp⟩ := perm_instances_push hd hm hc ht hv hi fun w =>
    (w.entry? field).filter (!isIdle ·)
  have htexts : ((is'.filterMap (countedId? field)).map Value.text).Perm
      ((S.idsWithin c kind field v).map Value.text ++
        (is.filterMap (countedId? field)).map Value.text) := by
    rw [← List.map_append]
    exact (hp.trans List.perm_append_comm).map Value.text
  rw [duplicateIdIssues_eq_nil_iff, hi']
  simp only [Except.ok.injEq, exists_eq_left', htexts.nodup_iff, List.nodup_append', hnodup,
    true_and]
  rfl

/-! ## Old resources -/

variable (hv : ∀ kind, (S.fieldVisits (.component kind) "" c.fields v).error = none)
include hv

/-- Instances that are found are still found, though perhaps others. -/
theorem locate_push {kind : String} {id : Int} {i : Instance}
    (h : S.locate d kind id = .ok (some i)) :
    ∃ j, S.locate (d.push name v) kind id = .ok (some j) := by
  obtain ⟨ids, hids, hmem⟩ := exists_locate_iff.1 ⟨i, h⟩
  obtain ⟨is, hi, rfl⟩ := map_eq_ok_iff.1 hids
  obtain ⟨is', hi', hp⟩ := perm_instances_push hd hm hc ht (hv kind) hi fun w =>
    (w.entry? (S.idKey kind)).bind Value.int64?
  refine exists_locate_iff.2 ⟨_, map_eq_ok_iff.2 ⟨is', hi', rfl⟩, ?_⟩
  exact hp.mem_iff.2 (List.mem_append_left _ hmem)

theorem fits_push {required : Bool} {t : Terminal} {w : Value} (h : S.Fits d required t w) :
    S.Fits (d.push name v) required t w := by
  cases h with
  | scalar h => exact .scalar h
  | enum h => exact .enum h
  | special h => exact .special h
  | null => exact .null
  | named hn hdef => exact .named hn (Script.defines_push hdef)
  | instanceId hid hl =>
    obtain ⟨j, hj⟩ := locate_push hd hm hc ht hv hl
    exact .instanceId hid hj

/-- A value without problems stays so. -/
theorem classProblems_push (hS : S.Hookless) {c' : Class} (hc' : S.Describes c') {w : Value}
    (h : S.classProblems d "" c' w = .ok []) :
    S.classProblems (d.push name v) "" c' w = .ok [] := by
  refine classProblems_transfer Search.compatible_nil hS (fun n t required u hx => ?_) "" hc' w h
  rw [terminalProblems_eq_nil_iff] at hx ⊢
  exact fits_push hd hm hc ht hv hx

/-- Nothing is wrong with another collection that was in order. -/
theorem collectionIssues_push (hS : S.Hookless) {refuseUnknown : Bool} {key : String}
    (hkey : key ≠ name) (h : S.collectionIssues d refuseUnknown key = .ok []) :
    S.collectionIssues (d.push name v) refuseUnknown key = .ok [] := by
  obtain ⟨vs, ha, hx⟩ := collectionIssues_eq_nil_iff.1 h
  refine collectionIssues_eq_nil_iff.2 ⟨vs, by rw [Script.array?_push, if_neg hkey, ha], ?_⟩
  rcases hk : S.resourceFor? key with _ | ⟨type', c'⟩
  · rw [hk] at hx
    exact hx
  · rw [hk] at hx
    exact ⟨hx.1, fun w hw =>
      classProblems_push hd hm hc ht hv hS (S.describes_of_resourceFor hk) (hx.2 w hw)⟩

/-- Nothing is wrong with the collection itself, if that holds of the names in it and of the
resource. -/
theorem collectionIssues_push_self (hS : S.Hookless) {refuseUnknown : Bool}
    (hn : ((d.collection name ++ [v]).filterMap nameOf?).Nodup)
    (hold : ∀ w ∈ d.collection name, S.classProblems d "" c w = .ok [])
    (hnew : S.classProblems (d.push name v) "" c v = .ok []) :
    S.collectionIssues (d.push name v) refuseUnknown name = .ok [] := by
  refine collectionIssues_eq_nil_iff.2 ⟨_, by rw [Script.array?_push, if_pos rfl], ?_⟩
  rw [hc]
  refine ⟨hn, fun w hw => ?_⟩
  rcases List.mem_append.1 hw with hw | hw
  · exact classProblems_push hd hm hc ht hv hS (S.describes_of_resourceFor hc) (hold w hw)
  · obtain rfl := List.mem_singleton.1 hw
    exact hnew

end Push

/-! ## The new resource -/

variable (S d name c) in
/-- What is asked of a resource that is added to a collection, which is described by a class. -/
structure Addable (v : Value) : Prop where
  /-- Nothing is wrong with it as a member of the collection. -/
  issues : S.resourceIssues (d.push name v) name v = .ok []
  /-- Its name is not that of another resource. -/
  fresh : ∀ n, nameOf? v = some n → d.defines name n = false
  /-- The ids that its instances bring along are unique, also among those that there are. -/
  ids : ∀ kind field, (kind, field) ∈ S.idFields → ∃ is, S.instances d kind = .ok is ∧
    ((S.idsWithin c kind field v).map Value.text).Nodup ∧
      ∀ text ∈ (S.idsWithin c kind field v).map Value.text,
        text ∉ (is.filterMap (countedId? field)).map Value.text

theorem nodup_names_push :
    ((d.collection name ++ [v]).filterMap nameOf?).Nodup ↔
      ((d.collection name).filterMap nameOf?).Nodup ∧
        ∀ n, nameOf? v = some n → d.defines name n = false := by
  rw [List.filterMap_append]
  rcases hn : nameOf? v with _ | n
  · simp [hn]
  · have hdef : d.defines name n = false ↔ n ∉ (d.collection name).filterMap nameOf? := by
      rw [← Bool.not_eq_true, Script.defines_iff, List.mem_filterMap]
    rw [List.filterMap_cons_some hn, List.filterMap_nil, List.nodup_append_comm,
      List.singleton_append, List.nodup_cons, and_comm]
    simp only [Option.some.injEq, forall_eq', hdef]

/-! ## Validation -/

variable {r : Requirements}

/-- In an accepted script, the entry of a name is a collection, if there is one. -/
theorem takes_of_validate (h : S.validate d r = .ok ()) (hm : name ≠ Script.metaKey) :
    d.Takes name := by
  rcases hg : d.get? name with _ | w
  · exact .inl hg
  · have hn : name ∈ d.names := Script.mem_names_iff.2 ⟨Option.isSome_of_eq_some hg, hm⟩
    obtain ⟨vs, ha, -⟩ := collectionIssues_eq_nil_iff.1
      ((contentIssues_eq_nil_iff.1 (validate_eq_ok_iff.1 h).2).1 name hn)
    rw [Script.array?, hg, Option.bind_some] at ha
    exact .inr ⟨vs, by rw [hg, array_of_array? ha]⟩

theorem nodup_names_of_validate (h : S.validate d r = .ok ())
    (hc : S.resourceFor? name = some (type, c)) :
    ((d.collection name).filterMap nameOf?).Nodup := by
  rcases ha : d.array? name with _ | vs
  · simp [Script.collection, ha]
  · obtain ⟨vs', ha', hx⟩ := collectionIssues_eq_nil_iff.1
      ((contentIssues_eq_nil_iff.1 (validate_eq_ok_iff.1 h).2).1 name (mem_names_of_array? h ha))
    obtain rfl := Option.some.inj (ha.symm.trans ha')
    rw [hc] at hx
    rw [Script.collection, ha]
    exact hx.1

/-- The walk through a value without problems comes to its end. -/
theorem fieldVisits_error_eq_none (h : S.classProblems d "" c v = .ok []) (focus : Focus) :
    (S.fieldVisits focus "" c.fields v).error = none := by
  rw [classProblems_eq, Search.both_eq_nil_iff] at h
  exact ((visits_fitOn focus).fieldsOf [] c.fields v "" h.1 "").1

/-- **The script with a resource added is accepted if and only if nothing is wrong with the
resource**: it has no problems, and a name and ids of its own. -/
theorem validate_push_iff (hS : S.Hookless) (d : Script) (r : Requirements)
    (hd : d.entries.Distinct) (h : S.validate d r = .ok ()) {name type : String} {c : Class}
    (hm : name ≠ Script.metaKey) (hc : S.resourceFor? name = some (type, c)) (v : Value) :
    S.validate (d.push name v) r = .ok () ↔ S.Addable d name c v := by
  obtain ⟨hmeta, hcontent⟩ := validate_eq_ok_iff.1 h
  obtain ⟨hnames, hids⟩ := contentIssues_eq_nil_iff.1 hcontent
  have ht := takes_of_validate h hm
  have hold (w : Value) (hw : w ∈ d.collection name) : S.classProblems d "" c w = .ok [] :=
    (resourceIssues_eq_nil_iff hc).1 (registered_of_validate h hw hc)
  constructor
  · intro h'
    have hissues := registered_of_validate h' Script.mem_collection_push hc
    have hv := fieldVisits_error_eq_none ((resourceIssues_eq_nil_iff hc).1 hissues)
    have hnodup := nodup_names_of_validate h' hc
    rw [Script.collection_push, if_pos rfl] at hnodup
    have hids' := (contentIssues_eq_nil_iff.1 (validate_eq_ok_iff.1 h').2).2
    refine ⟨hissues, (nodup_names_push.1 hnodup).2, fun kind field hf => ?_⟩
    obtain ⟨is, hi, hn⟩ := duplicateIdIssues_eq_nil_iff.1 (hids _ hf)
    exact ⟨is, hi, (duplicateIdIssues_push_iff hd hm hc ht (hv _) hi hn).1 (hids' _ hf)⟩
  · intro hnew
    have hproblems := (resourceIssues_eq_nil_iff hc).1 hnew.issues
    have hv (kind : String) := fieldVisits_error_eq_none hproblems (.component kind)
    rw [validate_eq_ok_iff, contentIssues_eq_nil_iff, Script.get?_push, if_neg hm.symm]
    refine ⟨hmeta, fun key hkey => ?_, fun f hf => ?_⟩
    · by_cases hk : key = name
      · subst hk
        have hn := nodup_names_push.2 ⟨nodup_names_of_validate h hc, hnew.fresh⟩
        exact collectionIssues_push_self hd hm hc ht hv hS hn hold hproblems
      · have hkey := ((Script.mem_names_push hm).1 hkey).resolve_left hk
        exact collectionIssues_push hd hm hc ht hv hS hk (hnames key hkey)
    · obtain ⟨is, hi, hn⟩ := duplicateIdIssues_eq_nil_iff.1 (hids f hf)
      obtain ⟨is', hi', hown⟩ := hnew.ids f.1 f.2 hf
      obtain rfl := Except.ok.inj (hi.symm.trans hi')
      exact (duplicateIdIssues_push_iff hd hm hc ht (hv f.1) hi hn).2 hown

/-- A third scene, with a cue of its own that follows one of the first scene. -/
def thirdScene : Value :=
  .object [("name", .string "night"),
    ("cues", .array [.object [("type", .string "line"), ("id", .number (.int 4)),
      ("after", .number (.int 3))]])]

theorem validate_push_iff_twoScenes :
    scenes.Hookless ∧ twoScenes.entries.Distinct ∧
      scenes.validate twoScenes ⟨1, true⟩ = .ok () ∧ "scenes" ≠ Script.metaKey ∧
      ∃ type c, scenes.resourceFor? "scenes" = some (type, c) ∧
        (scenes.validate (twoScenes.push "scenes" thirdScene) ⟨1, true⟩ = .ok () ↔
          scenes.Addable twoScenes "scenes" c thirdScene) := by
  have hd : twoScenes.entries.Distinct := by decide
  have hsome : (scenes.resourceFor? "scenes").isSome = true := by cbv
  obtain ⟨⟨type, c⟩, hc⟩ := Option.isSome_iff_exists.1 hsome
  exact ⟨hookless_scenes, hd, validate_twoScenes, by decide, type, c, hc,
    validate_push_iff hookless_scenes twoScenes ⟨1, true⟩ hd validate_twoScenes (by decide) hc
      thirdScene⟩

end Schema

end ScriptSchema
