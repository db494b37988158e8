import ScriptSchema.Proofs.Endings
import ScriptSchema.Proofs.Grounded

/-!
# Scripts that are walked and validated to the end

A walk comes to the end of a script if it returns from every resource. So it is with validation,
which walks through the script once more for every id that has to be unique. Of a checked schema
nothing else can keep them from it.

* `Schema.ResourcesReturn`, `Schema.ValidationReturns`: the calls for a script return;
* `completes_classProblems_iff`: one resource;
* **`error_findings_iff_returns`**: walks through a script;
* **`completes_contentIssues_iff`**: validation of a script;
* `resourcesReturn_of_grounded`, `validationReturns_of_grounded`: grounded schemas.
-/

namespace ScriptSchema

namespace Schema

variable (S : Schema) (d : Script)

/-- The task returns from every resource of the script. -/
def ResourcesReturn (task : Task) : Prop :=
  ∀ entry ∈ d.entries, ∀ c vs, S.Collects entry c vs → ∀ v ∈ vs,
    S.Returns d ⟨task, .object c.fields .plain, v⟩

/-- Validation returns from every resource of the script, and so do the walks to instances whose ids
have to be unique. -/
structure ValidationReturns : Prop where
  resources : S.ResourcesReturn d .validate
  ids : S.idFields ≠ [] → S.ResourcesReturn d .walk

variable {S d}

section Grounded

variable (h : S.Grounded)
include h

theorem resourcesReturn_of_grounded (task : Task) : S.ResourcesReturn d task :=
  fun _ _ _ _ _ _ _ => returns_of_grounded h _

theorem validationReturns_of_grounded : S.ValidationReturns d :=
  ⟨resourcesReturn_of_grounded h .validate, fun _ => resourcesReturn_of_grounded h .walk⟩

end Grounded

section Sound

variable (hS : S.Sound)
include hS

/-! ## Walks -/

theorem error_fieldVisits_iff {c : Class} (hc : S.Describes c) (focus : Focus) (v : Value) :
    (S.fieldVisits focus "" c.fields v).error = none ↔
      S.Returns d ⟨.walk, .object c.fields .plain, v⟩ := by
  constructor
  · exact fun h => (walk_returns_descent focus).fieldsOf [] c.fields v "" h .plain
  · intro hr
    have hends := ends_of_returns hS hr (hS.everyField c hc)
    have hvisits := hends focus ""
    rwa [visits, visitsWhile_object] at hvisits

/-- **A walk comes to the end of a script if it returns from every resource**, whatever is visited
on the way. -/
theorem error_findings_iff_returns (focus : Focus) :
    (S.findings focus d).error = none ↔ S.ResourcesReturn d .walk := by
  rw [error_findings]
  constructor
  · rintro h ⟨name, _⟩ he c vs ⟨hne, ⟨type, hc⟩, rfl⟩ v hv
    obtain ⟨i, hi⟩ := List.getElem?_of_mem hv
    exact (error_fieldVisits_iff hS (S.describes_of_resourceFor hc) focus v).1
      (h name vs he hne type c hc (v, i) (List.mk_mem_zipIdx_iff_getElem?.2 hi))
  · intro h name vs he hne type c hc m hm
    exact (error_fieldVisits_iff hS (S.describes_of_resourceFor hc) focus m.1).2
      (h _ he c vs ⟨hne, ⟨type, hc⟩, rfl⟩ m.1 (List.fst_mem_of_mem_zipIdx hm))

/-! ## Validation -/

/-- The problems of a resource can be told if validation returns from it. -/
theorem completes_classProblems_iff {c : Class} (hc : S.Describes c) {v : Value} :
    Search.Completes (S.classProblems d "" c v) ↔
      S.Returns d ⟨.validate, .object c.fields .plain, v⟩ := by
  have hhook : Search.Completes (.ok (hookProblems d c.hook v)) := ⟨_, rfl⟩
  have hfields := hS.everyField c hc
  rw [classProblems_eq, Search.both_completes_iff, and_iff_left hhook]
  refine ⟨fun h => validate_returns_descent.fieldsOf [] c.fields v "" h .plain, fun hr => ?_⟩
  rcases hl : c.fields.lone? with _ | next
  · refine (completes_fields [] "" hl).2 fun es ho f hf w hw => ?_
    exact ends_of_returns hS (hr.inv (.field hl ho hf hw)) (Spec.everyField_iff.1 hfields f hf) _
  · rw [fieldProblemsWhile_lone S d [] hl]
    exact ends_of_returns hS (hr.inv (.handOn hl)) (hfields.lone hl) _

theorem completes_duplicateIdIssues_iff {kind : String} (hk : S.Registers kind) (field : String) :
    Search.Completes (S.duplicateIdIssues d kind field) ↔ S.ResourcesReturn d .walk := by
  rw [duplicateIdIssues, Search.map_completes_iff,
    ← error_findings_iff_returns hS (.component kind)]
  constructor
  · rintro ⟨is, his⟩
    exact (instances_eq_ok_iff.1 his).2.1
  · exact fun he => ⟨_, instances_eq_ok_iff.2 ⟨hk, he, rfl⟩⟩

/-- **The issues of a script can be told if validation returns from it.** -/
theorem completes_contentIssues_iff (hd : d.entries.Distinct) (refuseUnknown : Bool) :
    Search.Completes (S.contentIssues d refuseUnknown) ↔ S.ValidationReturns d := by
  rw [contentIssues_eq, Search.both_completes_iff, Search.gather_completes_iff,
    Search.gather_completes_iff, List.forall_mem_map, List.forall_mem_map]
  constructor
  · rintro ⟨hcollections, hids⟩
    refine ⟨?_, fun hne => ?_⟩
    · rintro ⟨name, _⟩ he c vs ⟨hne, ⟨type, hc⟩, rfl⟩ v hv
      have hname : name ∈ d.names :=
        List.mem_filter.2 ⟨List.mem_map_of_mem he, bne_iff_ne.2 hne⟩
      exact (completes_classProblems_iff hS (S.describes_of_resourceFor hc)).1
        (collectionIssues_completes_iff.1 (hcollections name hname) vs type c
          (array?_of_mem hd he) hc v hv)
    · obtain ⟨f, hf⟩ := List.exists_mem_of_ne_nil _ hne
      exact (completes_duplicateIdIssues_iff hS (hS.registers f.1 f.2 hf) f.2).1 (hids f hf)
  · rintro ⟨hresources, hids⟩
    refine ⟨fun name hname => ?_, fun f hf => ?_⟩
    · refine collectionIssues_completes_iff.2 fun vs type c ha hc v hv => ?_
      obtain ⟨w, hw, hvs⟩ := Option.bind_eq_some_iff.1 ha
      obtain rfl := array_of_array? hvs
      refine (completes_classProblems_iff hS (S.describes_of_resourceFor hc)).2 ?_
      exact hresources _ (mem_of_lookup hw) c vs
        ⟨bne_iff_ne.1 (List.mem_filter.1 hname).2, ⟨type, hc⟩, rfl⟩ v hv
    · exact (completes_duplicateIdIssues_iff hS (hS.registers f.1 f.2 hf) f.2).2
        (hids (List.ne_nil_of_mem hf))

end Sound

end Schema

end ScriptSchema
