import ScriptSchema.Proofs.Descent

/-!
# What a focus selects

A walk goes the same way whatever it looks for: its focus only decides which of the visits it is
told about. The walk with the widest focus is therefore the only one there is, and all others are
read off from it, the error that ends them included.

* `Focus.selects`: the visits that a focus is about;
* `Trace.filter`, `filter_append`, `filter_each`: a walk of which only some visits are looked at;
* `visits_filter_descent`, `fieldVisits_eq_filter`: walks through a value;
* **`findings_eq_filter`**, `mem_findings_iff`: walks through a script.
-/

namespace ScriptSchema

/-- The focus is about the visit. Terminal values are selected by what they are, on keys of
dictionaries too, and instances of components by their kind, on values only. -/
def Focus.selects : Focus → Visit → Bool
  | any, _ => true
  | terminal, ⟨_, .terminal _ _, _, _⟩ => true
  | scalar format, ⟨_, .terminal (.scalar f) _, _, _⟩ => format == f
  | enum, ⟨_, .terminal (.enum _) _, _, _⟩ => true
  | reference, ⟨_, .terminal (.reference _ _ _) _, _, _⟩ => true
  | instanceId, ⟨_, .terminal (.instanceId _) _, _, _⟩ => true
  | component kind, ⟨_, .component k _, onKey, _⟩ => !onKey && kind == k
  | _, _ => false

namespace Focus

theorem selects_terminal (focus : Focus) (path : String) (t : Terminal) (info : Info)
    (onKey : Bool) (v : Value) :
    focus.selects ⟨path, .terminal t info, onKey, v⟩ = focus.takes t := by
  cases focus <;> cases t <;> rfl

theorem selects_component (focus : Focus) (path kind : String) (info : Info) (v : Value) :
    focus.selects ⟨path, .component kind info, false, v⟩ = focus.takesComponent kind := by
  cases focus <;> rfl

end Focus

/-! ## Looking at some of the visits -/

namespace Trace

variable {α β : Type} (p : α → Bool)

/-- The same walk, with only some of what it sees. -/
def filter (t : Trace α) : Trace α := ⟨t.seen.filter p, t.error⟩

theorem filter_append (t u : Trace α) : (t ++ u).filter p = t.filter p ++ u.filter p := by
  rcases ht : t.error with _ | e
  · rw [append_of_none ht, append_of_none (t := t.filter p) ht, filter, List.filter_append]
    rfl
  · rw [append_of_some ht, append_of_some (t := t.filter p) ht]

theorem filter_each (f : β → Trace α) (bs : List β) :
    (each f bs).filter p = each (fun b => (f b).filter p) bs := by
  induction bs with
  | nil => rfl
  | cons b bs ih => rw [each, each, filter_append, ih]

theorem filter_map (f : β → α) (t : Trace β) :
    (t.map f).filter p = (t.filter fun b => p (f b)).map f := by
  rw [filter, map, List.filter_map]
  rfl

/-- One visit, if it is looked at. -/
theorem filter_singleton (a : α) :
    (ofList [a]).filter p = if p a then ofList [a] else nil := by
  rcases h : p a with _ | _
  · simp [filter, ofList, nil, h]
  · simp [filter, ofList, h]

end Trace

namespace Schema

variable (S : Schema) (focus : Focus)

/-! ## Walks through a value -/

/-- Keys are visited for the focus if it is about their spec. -/
theorem keyVisits_eq_filter (path : String) (keys : Spec) (es : Entries Value) :
    keyVisits focus path keys es = (keyVisits .any path keys es).filter focus.selects := by
  unfold keyVisits
  cases keys with
  | terminal t info =>
    have hall : (Spec.terminal t info).terminal?.any Focus.any.takes = true := rfl
    have hsel (visit : Visit) (hv : visit ∈ es.keys.map fun k =>
        (⟨Path.entry path k, .terminal t info, true, .string k⟩ : Visit)) :
        focus.selects visit = focus.takes t := by
      obtain ⟨k, -, rfl⟩ := List.mem_map.1 hv
      exact focus.selects_terminal _ t info true _
    rw [if_pos hall, Trace.filter, Trace.ofList]
    rcases ht : focus.takes t with _ | _
    · rw [List.filter_eq_nil_iff.2 fun visit hv => by simp [hsel visit hv, ht]]
      exact if_neg (by simp [Spec.terminal?, ht])
    · rw [List.filter_eq_self.2 fun visit hv => by rw [hsel visit hv, ht]]
      exact if_pos (by simp [Spec.terminal?, ht])
  | _ => rfl

/-- At every level of the descent, the focus only filters: the visit of an instance, of a terminal
value and of keys, and nothing about where the walk goes or why it ends. -/
theorem visits_filter_descent :
    S.Descent
      (fun present spec v => ∀ path, S.visitsWhile focus present path spec v =
        (S.visitsWhile .any present path spec v).filter focus.selects)
      (fun present fields v => ∀ path, S.fieldVisitsWhile focus present path fields v =
        (S.fieldVisitsWhile .any present path fields v).filter focus.selects) where
  terminal present t info v path := by
    have hany : Focus.any.takes t = true := rfl
    rw [visitsWhile_terminal, visitsWhile_terminal, if_pos hany, Trace.filter_singleton,
      Focus.selects_terminal]
  list present items info v ih path := by
    rw [visitsWhile_list_eq, visitsWhile_list_eq]
    rcases hv : v.array? with _ | vs
    · rfl
    · rw [Trace.filter_each]
      exact Trace.each_congr fun m hm => ih vs hv m.1 (List.fst_mem_of_mem_zipIdx hm) _
  dictionary present keys values info v ih path := by
    rw [visitsWhile_dictionary_eq, visitsWhile_dictionary_eq]
    rcases hv : v.object? with _ | es
    · rfl
    · dsimp only
      rw [Trace.filter_append, Trace.filter_each, ← keyVisits_eq_filter]
      congr 1
      exact Trace.each_congr fun e he => (ih es hv e he).2 _
  object present fields info v ih path := by
    rw [visitsWhile_object, visitsWhile_object]
    exact ih path
  component present kind info v ih path := by
    have hany : Focus.any.takesComponent kind = true := rfl
    rw [visitsWhile_component_eq, visitsWhile_component_eq, Trace.filter_append, if_pos hany,
      Trace.filter_singleton, Focus.selects_component]
    congr 1
    rcases hc : S.components.find? kind with _ | c
    · rfl
    dsimp only
    split
    · split
      · rfl
      · rename_i hk
        exact ih c hc hk _ path
    · rfl
  fields present fields v lone parts path := by
    rw [fieldVisitsWhile_eq, fieldVisitsWhile_eq]
    rcases hl : fields.lone? with _ | spec
    · rcases hv : v.object? with _ | es
      · rfl
      · dsimp only
        rw [Trace.filter_each]
        refine Trace.each_congr fun f hf => ?_
        rcases hw : es.lookup f.1 with _ | w
        · rfl
        · exact parts es hv f hf w hw _
    · exact lone spec hl path

theorem fieldVisits_eq_filter (path : String) (fields : Fields) (v : Value) :
    S.fieldVisits focus path fields v =
      (S.fieldVisits .any path fields v).filter focus.selects :=
  (S.visits_filter_descent focus).fieldsOf [] fields v path

/-! ## Walks through a script -/

theorem entryFindings_eq_filter (entry : String × Value) :
    S.entryFindings focus entry =
      (S.entryFindings .any entry).filter fun f => focus.selects f.visit := by
  unfold entryFindings
  split
  · rfl
  split
  · rw [Trace.filter_each]
    refine Trace.each_congr fun m _ => ?_
    rw [memberFindings, memberFindings, Trace.filter_map, fieldVisits_eq_filter]
  · rfl

theorem each_entryFindings_eq_filter (es : Entries Value) :
    Trace.each (S.entryFindings focus) es =
      (Trace.each (S.entryFindings .any) es).filter fun f => focus.selects f.visit := by
  rw [Trace.filter_each]
  exact Trace.each_congr fun entry _ => S.entryFindings_eq_filter focus entry

/-- **A focus is a filter**: a walk through a script sees what the walk with the widest focus sees
and its own focus selects, in the same order, and ends as that does. -/
theorem findings_eq_filter (d : Script) :
    S.findings focus d = (S.findings .any d).filter fun f => focus.selects f.visit :=
  S.each_entryFindings_eq_filter focus d.entries

theorem mem_findings_iff {d : Script} {f : Finding} :
    f ∈ (S.findings focus d).seen ↔
      f ∈ (S.findings .any d).seen ∧ focus.selects f.visit = true := by
  rw [findings, each_entryFindings_eq_filter, Trace.filter, List.mem_filter, findings]

end Schema

end ScriptSchema
