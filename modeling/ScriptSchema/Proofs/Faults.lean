import ScriptSchema.Proofs.Descent
import ScriptSchema.Proofs.Sound
import ScriptSchema.Report.Conformance
import ScriptSchema.Visit.Reference

/-!
# A sound schema is never at fault

Under a sound schema neither a walk nor validation meets a fault of the schema, whatever the script
and wherever in it they go: through variants, keys of dictionaries, references to instances that
walk the whole script again, and the class that can hold a tag only. What remains is the endless
descent of a component that describes its own value.

* `Trace.blameless_append`, `Trace.blameless_each`;
* **`findings_blameless`**: walks through a script;
* `instances_blameless`, `locate_blameless`, `references_blameless`, …: queries;
* `terminalProblems_blameless`, `classProblems_blameless`: validation of values;
* **`contentIssues_blameless`**: validation of scripts.
-/

namespace ScriptSchema

variable {α β : Type}

/-! ## Traces -/

namespace Trace

theorem blameless_append {t u : Trace α} (ht : Blameless t.result) (hu : Blameless u.result) :
    Blameless (t ++ u).result := by
  rw [result_append]
  exact ht.both hu

theorem blameless_each {f : β → Trace α} {bs : List β} (h : ∀ b ∈ bs, Blameless (f b).result) :
    Blameless (each f bs).result := by
  rw [result_each]
  exact .gather (List.forall_mem_map.2 h)

end Trace

namespace Schema

/-- The issues of the collections, and then those of the ids. -/
theorem contentIssues_eq (S : Schema) (d : Script) (refuseUnknown : Bool) :
    S.contentIssues d refuseUnknown =
      Search.both (Search.gather (d.names.map (S.collectionIssues d refuseUnknown)))
        (Search.gather (S.idFields.map fun f => S.duplicateIdIssues d f.1 f.2)) := by
  rw [← Search.mapM_flatten_eq, ← Search.mapM_flatten_eq, contentIssues]
  rcases d.names.mapM (m := Except SchemaFault) (S.collectionIssues d refuseUnknown) with _ | found
  · rfl
  · generalize S.idFields.mapM (m := Except SchemaFault)
      (fun f => S.duplicateIdIssues d f.1 f.2) = x
    rcases x with _ | ids <;> rfl

variable {S : Schema} (hS : S.Sound)
include hS

/-! ## Walks -/

theorem visits_descent (focus : Focus) :
    S.Descent
      (fun present spec v => spec.Every S.Admits S.Registers →
        ∀ path, Blameless (S.visitsWhile focus present path spec v).result)
      (fun present fields v => Spec.EveryField S.Admits S.Registers fields →
        ∀ path, Blameless (S.fieldVisitsWhile focus present path fields v).result) where
  terminal present t info v _ path := by
    rw [visitsWhile_terminal]
    split <;> exact .ok _
  list present items info v ih h path := by
    rw [visitsWhile_list_eq]
    split
    · rename_i vs hv
      refine Trace.blameless_each fun m hm => ?_
      exact ih vs hv m.1 (List.fst_mem_of_mem_zipIdx hm) h _
    · exact .ok _
  dictionary present keys values info v ih h path := by
    rw [visitsWhile_dictionary_eq]
    split
    · rename_i es hv
      refine Trace.blameless_append ?_ (Trace.blameless_each fun e he => ?_)
      · unfold keyVisits
        split <;> exact .ok _
      · exact (ih es hv e he).2 h.2 _
    · exact .ok _
  object present fields info v ih h path := by
    rw [visitsWhile_object]
    exact ih h path
  component present kind info v ih h path := by
    rw [visitsWhile_component_eq]
    refine Trace.blameless_append (by split <;> exact .ok _) ?_
    obtain ⟨c, hc⟩ := Option.isSome_iff_exists.1 h
    simp only [hc]
    split
    · split
      · exact .circular kind
      · rename_i hk
        exact ih c hc hk _ (hS.everyField_classAt hc v) path
    · exact .ok _
  fields present fields v lone parts h path := by
    rw [fieldVisitsWhile_eq]
    split
    · rename_i spec hl
      exact lone spec hl (h.lone hl) path
    · split
      · rename_i es hv
        refine Trace.blameless_each fun f hf => ?_
        rcases hw : es.lookup f.1 with _ | w
        · exact .ok _
        · exact parts es hv f hf w hw
            (Spec.everyField_iff.1 h f hf) _
      · exact .ok _

/-- **A walk through a script meets no fault of a sound schema.** -/
theorem findings_blameless (focus : Focus) (d : Script) :
    Blameless (S.findings focus d).result := by
  refine Trace.blameless_each fun entry _ => ?_
  unfold entryFindings
  split
  · exact .ok _
  · split
    · rename_i type c vs hc _
      refine Trace.blameless_each fun m _ => ?_
      rw [memberFindings, Trace.result_map]
      exact ((visits_descent hS focus).fieldsOf [] c.fields m.1
        (hS.everyField c (S.describes_of_resourceFor hc)) "").map _
    · exact .ok _

/-! ## Queries -/

theorem instances_blameless (d : Script) {kind : String} (hk : S.Registers kind) :
    Blameless (S.instances d kind) := by
  obtain ⟨c, hc⟩ := Option.isSome_iff_exists.1 hk
  have h : S.component kind = .ok c := S.component_eq_ok_iff.2 hc
  exact Blameless.bind (h ▸ .ok c) fun _ _ =>
    (findings_blameless hS (.component kind) d).bind fun _ _ => .ok _

theorem locate_blameless (d : Script) {kind : String} (hk : S.Registers kind) (id : Int) :
    Blameless (S.locate d kind id) := (instances_blameless hS d hk).map _

theorem references_blameless (d : Script) : Blameless (S.references d) :=
  (findings_blameless hS .reference d).map _

theorem referrers_blameless (d : Script) (collection name : String) :
    Blameless (S.referrers d collection name) := (references_blameless hS d).map _

theorem instanceReferrers_blameless (d : Script) (kind : String) (id : Int) :
    Blameless (S.instanceReferrers d kind id) := (findings_blameless hS .instanceId d).map _

/-! ## Validation of values -/

theorem terminalProblems_blameless (d : Script) (name : String) {t : Terminal} (ht : S.Admits t)
    (required : Bool) (v : Value) : Blameless (S.terminalProblems d name t required v) := by
  cases t with
  | scalar format => exact .ok _
  | reference collection special nullable => exact .ok _
  | enum options =>
    have he : ¬ options.isEmpty = true := fun h => ht (List.isEmpty_iff.1 h)
    rw [terminalProblems, enumProblems, if_neg he]
    split <;> exact .ok _
  | instanceId kind =>
    rw [terminalProblems, instanceProblems]
    split
    · exact .ok _
    · refine (locate_blameless hS d ht _).bind fun found _ => ?_
      cases found <;> exact .ok _

theorem problems_descent (d : Script) :
    S.Descent
      (fun present spec v => spec.Every S.Admits S.Registers →
        ∀ name, Blameless (S.problemsWhile d present name spec v))
      (fun present fields v => Spec.EveryField S.Admits S.Registers fields →
        ∀ lead, Blameless (S.fieldProblemsWhile d present lead fields v)) where
  terminal present t info v h name := by
    rw [problemsWhile_terminal]
    exact terminalProblems_blameless hS d name h _ v
  list present items info v ih h name := by
    rw [problemsWhile_list_eq]
    split
    · rename_i vs hv
      refine .gather (List.forall_mem_map.2 fun m hm => ?_)
      exact ih vs hv m.1 (List.fst_mem_of_mem_zipIdx hm) h _
    · exact .ok _
  dictionary present keys values info v ih h name := by
    rw [problemsWhile_dictionary_eq]
    split
    · rename_i es hv
      refine .gather (List.forall_mem_map.2 fun e he => ?_)
      exact .both ((ih es hv e he).1 h.1 _) ((ih es hv e he).2 h.2 _)
    · exact .ok _
  object present fields info v ih h name := by
    rw [problemsWhile_object]
    exact ih h _
  component present kind info v ih h name := by
    rw [problemsWhile_component_eq]
    obtain ⟨c, hc⟩ := Option.isSome_iff_exists.1 h
    simp only [hc]
    split
    · exact .ok _
    · exact .ok _
    · rename_i variant _
      rcases hx : c.variant? variant with _ | chosen
      · exact .ok _
      · dsimp only
        split
        · exact .circular kind
        · rename_i hk
          exact .both (ih c hc hk _ (hS.everyField chosen (.variant hc hx)) _) (.ok _)
  fields present fields v lone parts h lead := by
    rw [fieldProblemsWhile_eq]
    split
    · rename_i spec hl
      exact lone spec hl (h.lone hl) _
    · split
      · rename_i es hv
        refine .both (.gather (List.forall_mem_map.2 fun f hf => ?_)) (.ok _)
        rcases hw : es.lookup f.1 with _ | w
        · exact .ok _
        · exact parts es hv f hf w hw (Spec.everyField_iff.1 h f hf) _
      · exact .ok _

theorem classProblems_blameless (d : Script) (lead : String) {c : Class} (hc : S.Describes c)
    (v : Value) : Blameless (S.classProblems d lead c v) :=
  .both ((problems_descent hS d).fieldsOf [] c.fields v (hS.everyField c hc) lead) (.ok _)

/-! ## Validation of scripts -/

theorem resourceIssues_blameless (d : Script) (collection : String) (resource : Value) :
    Blameless (S.resourceIssues d collection resource) := by
  unfold resourceIssues
  split
  · exact .ok _
  · rename_i c hc
    exact (classProblems_blameless hS d "" (S.describes_of_resourceFor hc) resource).bind
      fun _ _ => .ok _

theorem memberIssues_blameless (d : Script) (collection : String) (before : List String)
    (resources : List Value) : Blameless (S.memberIssues d collection before resources) := by
  induction resources generalizing before with
  | nil => exact .ok _
  | cons resource rest ih =>
    exact (resourceIssues_blameless hS d collection resource).bind fun _ _ =>
      (ih _).bind fun _ _ => .ok _

theorem collectionIssues_blameless (d : Script) (refuseUnknown : Bool) (collection : String) :
    Blameless (S.collectionIssues d refuseUnknown collection) := by
  unfold collectionIssues
  split
  · exact .ok _
  · split
    · exact .ok _
    · exact memberIssues_blameless hS d collection [] _

/-- **Validation of a script meets no fault of a sound schema.** -/
theorem contentIssues_blameless (d : Script) (refuseUnknown : Bool) :
    Blameless (S.contentIssues d refuseUnknown) := by
  rw [contentIssues_eq]
  refine .both (.gather (List.forall_mem_map.2 fun name _ => ?_))
    (.gather (List.forall_mem_map.2 fun f hf => ?_))
  · exact collectionIssues_blameless hS d refuseUnknown name
  · exact (instances_blameless hS d (hS.registers f.1 f.2 hf)).map _

end Schema

end ScriptSchema
