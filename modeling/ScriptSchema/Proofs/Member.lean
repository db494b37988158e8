import ScriptSchema.Proofs.Integrity
import ScriptSchema.Workbench

/-!
# One resource of an accepted script

A workbench validates scripts, and single resources as members of a collection. Whether collections
of no registered type are refused is a setting of scripts only: a single resource is refused there
in any case.

* `registered_of_validate`: nothing is wrong with a resource of a registered type;
* `unregistered_of_validate`: resources of no registered type have been let pass;
* **`Workbench.resourceIssues_of_validate`**: what is said of a resource of an accepted script;
* `Workbench.not_resourceIssues_of_validate`: an accepted script with a resource that is refused.
-/

namespace ScriptSchema

namespace Schema

variable {S : Schema} {d : Script} {r : Requirements} {name : String} {v : Value}

/-- Nothing is wrong with a resource of a registered type in an accepted script. -/
theorem registered_of_validate (h : S.validate d r = .ok ()) (hv : v ∈ d.collection name)
    {type : String} {c : Class} (hc : S.resourceFor? name = some (type, c)) :
    S.resourceIssues d name v = .ok [] := by
  obtain ⟨vs, ha, hm⟩ := Script.mem_collection.1 hv
  exact (resourceIssues_eq_nil_iff hc).2 (classProblems_of_validate h ha hc v hm)

/-- An accepted script has resources of no registered type only if these are not refused. -/
theorem unregistered_of_validate (h : S.validate d r = .ok ()) (hv : v ∈ d.collection name)
    (hc : S.resourceFor? name = none) : r.refuseUnknown = false := by
  obtain ⟨vs, ha, hm⟩ := Script.mem_collection.1 hv
  obtain ⟨vs', ha', hx⟩ := collectionIssues_eq_nil_iff.1
    ((contentIssues_eq_nil_iff.1 (validate_eq_ok_iff.1 h).2).1 name (mem_names_of_array? h ha))
  obtain rfl := Option.some.inj (ha.symm.trans ha')
  rw [hc] at hx
  exact hx.resolve_left (List.ne_nil_of_mem hm)

end Schema

namespace Workbench

/-- **A resource of an accepted script is fine on its own, if its collection has a registered
type.** Otherwise the setting has let the script pass, and the resource is refused. -/
theorem resourceIssues_of_validate (b : Workbench) (d : Script) (h : b.validate d = .ok ())
    (name : String) (v : Value) (hv : v ∈ d.collection name) :
    match b.schema.resourceFor? name with
    | some _ => b.resourceIssues d name v = .ok []
    | none => b.settings.refuseUnknown = false ∧
        b.resourceIssues d name v = .ok [unknownCollection name] := by
  rcases hc : b.schema.resourceFor? name with _ | ⟨type, c⟩
  · have hx : b.resourceIssues d name v = .ok [unknownCollection name] := by
      rw [resourceIssues, Schema.resourceIssues, hc]
    exact ⟨Schema.unregistered_of_validate h hv hc, hx⟩
  · exact Schema.registered_of_validate h hv hc

/-- A workbench for scenes, without migrations. -/
def ofScenes (refuseUnknown : Bool) : Workbench :=
  ⟨.scenes, ⟨.scenes, 0, []⟩, ⟨some 1, refuseUnknown⟩⟩

theorem build_ofScenes (refuseUnknown : Bool) :
    build .scenes 0 [] ⟨some 1, refuseUnknown⟩ = .ok (ofScenes refuseUnknown) := by cbv

theorem resourceIssues_of_validate_twoScenes :
    (ofScenes true).validate Schema.twoScenes = .ok () ∧
      .object [("name", .string "eve")] ∈ Schema.twoScenes.collection "scenes" ∧
      match (ofScenes true).schema.resourceFor? "scenes" with
      | some _ => (ofScenes true).resourceIssues Schema.twoScenes "scenes"
          (.object [("name", .string "eve")]) = .ok []
      | none => (ofScenes true).settings.refuseUnknown = false ∧
          (ofScenes true).resourceIssues Schema.twoScenes "scenes"
            (.object [("name", .string "eve")]) = .ok [unknownCollection "scenes"] := by
  have hv : .object [("name", .string "eve")] ∈ Schema.twoScenes.collection "scenes" :=
    List.mem_cons_of_mem _ List.mem_cons_self
  exact ⟨Schema.validate_twoScenes, hv,
    resourceIssues_of_validate (ofScenes true) Schema.twoScenes Schema.validate_twoScenes "scenes"
      _ hv⟩

/-- A script with a collection of no registered type. -/
def oneGizmo : Script :=
  ⟨[("meta", .object [("version", .number (.int 1))]),
    ("gizmos", .array [.object [("name", .string "g")]])]⟩

theorem validate_oneGizmo : (ofScenes false).validate oneGizmo = .ok () := by
  have hn : oneGizmo.names = ["gizmos"] := by cbv
  have hc : Schema.scenes.collectionIssues oneGizmo false "gizmos" = .ok [] := rfl
  have hi : Schema.scenes.duplicateIdIssues oneGizmo "cue" "id" = .ok [] := by cbv
  refine Schema.validate_eq_ok_iff.2 ⟨by cbv, Schema.contentIssues_eq_nil_iff.2 ⟨?_, ?_⟩⟩
  · rw [hn]
    exact List.forall_mem_singleton.2 hc
  · exact List.forall_mem_singleton.2 hi

/-- A script may be accepted for its settings, and its resources refused in spite of them. -/
theorem not_resourceIssues_of_validate :
    ¬ ∀ (S : Schema) (depth : Nat) (ms : List Migration) (settings : Settings) (b : Workbench),
      build S depth ms settings = .ok b → ∀ d : Script, b.validate d = .ok () →
        ∀ name, name ≠ Script.metaKey → ∀ v ∈ d.collection name,
          b.resourceIssues d name v = .ok [] := by
  intro h
  have hx : (ofScenes false).resourceIssues oneGizmo "gizmos" (.object [("name", .string "g")]) =
      .ok [unknownCollection "gizmos"] := by cbv
  have hn := h .scenes 0 [] ⟨some 1, false⟩ _ (build_ofScenes false) oneGizmo validate_oneGizmo
    "gizmos" (by decide) _ List.mem_cons_self
  exact List.cons_ne_nil _ _ (Except.ok.inj (hx.symm.trans hn))

end Workbench

end ScriptSchema
