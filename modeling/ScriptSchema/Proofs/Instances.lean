import ScriptSchema.Proofs.Haul
import ScriptSchema.Proofs.Integrity

/-!
# The instances in a script

The instances of a component are what a walk through the whole script visits. What is read from
them is read here from the visits, for which it does not matter where the resources stand.

* `Schema.sights`, `Schema.ids`: the visits of a walk, and the ids of instances;
* `map_entryFindings`, `sights_eq`: what is visited in the entries of a script;
* `resourceAt?_findings`: every finding lies in a resource of the script;
* **`map_instances`**, `haul_instances`: readings of instances are readings of visits;
* `map_isSome_locate`, `exists_locate_iff`: looking for an instance is looking for its id;
* `instanceProblems_eq`: what a reference to an instance is held to.
-/

namespace ScriptSchema

/-- The id that counts of a visited instance. -/
def Schema.visitedId? (field : String) (visit : Visit) : Option Value :=
  if visit.onKey then none else (visit.value.entry? field).filter (!isIdle ·)

namespace Schema

variable (S : Schema)

/-- The visits of a walk through a script, without their places. -/
def sights (focus : Focus) (d : Script) : Search Visit :=
  ((S.findings focus d).map Finding.visit).result

/-- The visits in an entry of a script. -/
def entrySights (focus : Focus) (entry : String × Value) : Search Visit :=
  ((S.entryFindings focus entry).map Finding.visit).result

/-- The ids by which the instances of a component can be located. -/
def ids (d : Script) (kind : String) : Search Int :=
  (S.instances d kind).map (List.filterMap fun i => i.id? (S.idKey kind))

variable {S} {d : Script}

/-! ## Findings -/

/-- What a walk visits in an entry does not depend on where the resources stand in it. -/
theorem map_entryFindings (focus : Focus) {collection : String} (vs : List Value) :
    (S.entryFindings focus (collection, .array vs)).map Finding.visit =
      if collection = Script.metaKey then .nil
      else
        match S.resourceFor? collection with
        | none => .nil
        | some (_, c) => .each (S.fieldVisits focus "" c.fields) vs := by
  unfold entryFindings
  dsimp only
  split
  · rfl
  rcases S.resourceFor? collection with _ | ⟨type, c⟩
  · rfl
  dsimp only
  have hm (m : Value × Nat) : (S.memberFindings focus collection c.fields m).map Finding.visit =
      S.fieldVisits focus "" c.fields m.1 := by
    rw [memberFindings, Trace.map, Trace.map, List.map_map]
    exact congrArg (Trace.mk · _) (List.map_id _)
  simp only [Trace.map_each, hm]
  rw [← Trace.each_map (S.fieldVisits focus "" c.fields) Prod.fst, List.zipIdx_map_fst]

theorem sights_eq (focus : Focus) (d : Script) :
    S.sights focus d = Search.gather (d.entries.map (S.entrySights focus)) := by
  rw [sights, findings, Trace.map_each, Trace.result_each]
  rfl

/-- In the entry of a registered type every resource is visited. -/
theorem entrySights_array (focus : Focus) {collection type : String} {c : Class}
    (hm : collection ≠ Script.metaKey) (hc : S.resourceFor? collection = some (type, c))
    (vs : List Value) :
    S.entrySights focus (collection, .array vs) =
      Search.gather (vs.map fun v => (S.fieldVisits focus "" c.fields v).result) := by
  rw [entrySights, map_entryFindings, if_neg hm, hc, Trace.result_each]

/-- The place of a finding is that of a resource. -/
theorem resourceAt?_findings (hd : d.entries.Distinct) {focus : Focus}
    (h : (S.findings focus d).error = none) :
    (S.findings focus d).Holds fun f => (d.resourceAt? f.place).isSome = true := by
  have ht : (S.findings focus d).Holds fun _ => True := ⟨h, fun _ _ => trivial⟩
  refine holds_findings_iff.2 fun key vs he hm type c hc m hv => ?_
  refine ⟨(holds_findings_iff.1 ht key vs he hm type c hc m hv).1, fun _ _ => ?_⟩
  have hr : d.resourceAt? ⟨key, m.2⟩ = some m.1 := by
    rw [Script.resourceAt?, Script.collection, array?_of_mem hd he]
    exact List.mem_zipIdx_iff_getElem?.1 hv
  exact Option.isSome_of_eq_some hr

/-! ## Instances -/

theorem instances_eq_ok_iff {kind : String} {is : List Instance} :
    S.instances d kind = .ok is ↔ S.Registers kind ∧
      (S.findings (.component kind) d).error = none ∧
      ((S.findings (.component kind) d).seen.filter (!·.visit.onKey)).filterMap (fun f =>
        (d.resourceAt? f.place).map fun resource =>
          (⟨f.place, resource, f.visit.path, f.visit.value⟩ : Instance)) = is := by
  unfold instances Registers component Trace.result
  rcases S.components.find? kind with _ | c
  · exact ⟨nofun, nofun⟩
  rcases (S.findings (.component kind) d).error with _ | e
  · change Except.ok _ = _ ↔ _
    simp
  · exact ⟨nofun, nofun⟩

/-- **What is read from the values of all instances is read from the visits of the walk.** -/
theorem map_instances {β : Type} (hd : d.entries.Distinct) (kind : String)
    (g : Value → Option β) :
    (S.instances d kind).map (List.filterMap fun i => g i.value) =
      Except.bind (S.component kind) fun _ => (S.sights (.component kind) d).map
        (List.filterMap fun visit => if visit.onKey then none else g visit.value) := by
  unfold instances sights Trace.result
  rcases S.component kind with e | c
  · rfl
  rcases he : (S.findings (.component kind) d).error with _ | e
  · simp only [Trace.map, he]
    refine congrArg Except.ok ?_
    rw [List.filterMap_filter, List.filterMap_filterMap, List.filterMap_map]
    refine List.filterMap_congr fun f hf => ?_
    obtain ⟨resource, hr⟩ := Option.isSome_iff_exists.1 ((resourceAt?_findings hd he).2 f hf)
    rw [hr, Function.comp_apply]
    cases f.visit.onKey <;> rfl
  · simp only [Trace.map, he]
    rfl

/-- Scripts in which a walk has the same haul have the same instances, as far as their values are
read. -/
theorem haul_instances {β : Type} {e : Script} (hd : d.entries.Distinct) (he : e.entries.Distinct)
    {kind : String} (h : Search.haul (S.sights (.component kind) d) =
      Search.haul (S.sights (.component kind) e)) (g : Value → Option β) :
    Search.haul ((S.instances d kind).map (List.filterMap fun i => g i.value)) =
      Search.haul ((S.instances e kind).map (List.filterMap fun i => g i.value)) := by
  rw [map_instances hd, map_instances he]
  rcases S.component kind with e | c
  · rfl
  · change Search.haul (Except.map _ _) = Search.haul (Except.map _ _)
    rw [Search.haul_filterMap, Search.haul_filterMap, h]

theorem filterMap_countedId? (hd : d.entries.Distinct) {kind field : String} {is : List Instance}
    (h : S.instances d kind = .ok is) :
    is.filterMap (countedId? field) =
      ((S.findings (.component kind) d).map Finding.visit).seen.filterMap (visitedId? field) := by
  obtain ⟨hk, he, -⟩ := instances_eq_ok_iff.1 h
  obtain ⟨c, hc⟩ := Option.isSome_iff_exists.1 hk
  have hx := map_instances (S := S) hd kind fun v => (v.entry? field).filter (!isIdle ·)
  have hsights : S.sights (.component kind) d =
      .ok ((S.findings (.component kind) d).map Finding.visit).seen := by
    rw [sights, Trace.result, Trace.map, he]
  rw [h, S.component_eq_ok_iff.2 hc, hsights] at hx
  exact Except.ok.inj hx

/-! ## Looking for an instance -/

/-- An instance with an id is found if the id is that of some instance. -/
theorem map_isSome_locate (kind : String) (id : Int) :
    (S.locate d kind id).map Option.isSome = (S.ids d kind).map (List.contains · id) := by
  unfold locate ids
  rcases S.instances d kind with e | is
  · rfl
  refine congrArg Except.ok (Bool.eq_iff_iff.2 ?_)
  rw [List.find?_isSome, List.contains_iff_mem, List.mem_filterMap]
  simp only [beq_iff_eq]

theorem exists_locate_iff {kind : String} {id : Int} :
    (∃ i, S.locate d kind id = .ok (some i)) ↔ ∃ ids, S.ids d kind = .ok ids ∧ id ∈ ids := by
  have hx := S.map_isSome_locate (d := d) kind id
  constructor
  · rintro ⟨i, hi⟩
    rw [hi] at hx
    obtain ⟨ids, hids, hmem⟩ := map_eq_ok_iff.1 hx.symm
    exact ⟨ids, hids, List.contains_iff_mem.1 hmem⟩
  · rintro ⟨ids, hids, hmem⟩
    rw [hids] at hx
    obtain ⟨found, hi, hsome⟩ := map_eq_ok_iff.1 hx
    obtain ⟨i, rfl⟩ := Option.isSome_iff_exists.1 (hsome.trans (List.contains_iff_mem.2 hmem))
    exact ⟨i, hi⟩

/-- A reference to an instance is held to the ids of all instances. -/
theorem instanceProblems_eq (name kind : String) {v : Value} {id : Int} (h : v.int64? = some id) :
    S.instanceProblems d name kind v = (S.ids d kind).map fun ids =>
      if ids.contains id then []
      else [.unfit "Component reference" name (.plain (toString id)) (.memberOf kind)] := by
  have hfound : S.instanceProblems d name kind v =
      ((S.locate d kind id).map Option.isSome).map fun found =>
        if found then []
        else [.unfit "Component reference" name (.plain (toString id)) (.memberOf kind)] := by
    rw [instanceProblems, h]
    dsimp only
    rcases S.locate d kind id with e | _ | i <;> rfl
  rw [hfound, map_isSome_locate]
  rcases S.ids d kind with e | ids <;> rfl

end Schema

end ScriptSchema
