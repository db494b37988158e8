import ScriptSchema.Proofs.Conformance

/-!
# An accepted script holds together

Whatever a walk visits in an accepted script has been validated, and without problems: the walk and
the validation descend into the same parts, by the same classes. References therefore name resources
that are there, and ids belong to instances that can be found.

* `Visit.Fits`: a visited terminal value fits its spec;
* `Visit.FitsOn`: the same of all that a focus takes, which may be instances of components too;
* `visits_fitOn`: walks through a value without problems;
* **`findings_fitOn`**, `findings_fit`: walks through an accepted script;
* `Schema.Integrity`, **`integrity_of_validate`**: what an author can rely on.
-/

namespace ScriptSchema

theorem Entries.Distinct.lookup_eq {α : Type} {es : Entries α} (h : es.Distinct) {key : String}
    {a : α} (ha : (key, a) ∈ es) : es.lookup key = some a := by
  obtain ⟨before, after, rfl⟩ := List.append_of_mem ha
  refine List.lookup_eq_some_iff.2 ⟨before, after, rfl, fun e he => ?_⟩
  have hn : (Entries.keys before ++ key :: Entries.keys after).Nodup := by
    simpa only [Entries.Distinct, Entries.keys, List.map_append, List.map_cons] using h
  have hk : e.1 ≠ key :=
    (List.nodup_append.1 hn).2.2 e.1 (List.mem_map_of_mem he) key List.mem_cons_self
  simpa using hk.symm

theorem Script.mem_collection {d : Script} {key : String} {v : Value} :
    v ∈ d.collection key ↔ ∃ vs, d.array? key = some vs ∧ v ∈ vs := by
  rw [Script.collection]
  rcases d.array? key with _ | vs <;> simp

theorem array?_of_mem {d : Script} (hd : d.entries.Distinct) {name : String} {vs : List Value}
    (h : (name, .array vs) ∈ d.entries) : d.array? name = some vs := by
  rw [Script.array?, Script.get?, hd.lookup_eq h]
  rfl

/-- The visited value is a terminal one and fits its spec. -/
def Visit.Fits (S : Schema) (d : Script) (visit : Visit) : Prop :=
  ∃ t info, visit.spec = .terminal t info ∧ S.Fits d info.required t visit.value

/-- The visited value fits its spec, or it is an instance of a component that the focus takes. -/
def Visit.FitsOn (S : Schema) (d : Script) (focus : Focus) (visit : Visit) : Prop :=
  visit.Fits S d ∨
    ∃ kind info, visit.spec = .component kind info ∧ focus.takesComponent kind = true

namespace Schema

variable {S : Schema} {d : Script}

/-! ## Walks through a value -/

theorem keyVisits_fit (focus : Focus) (path : String) {keys : Spec} {es : Entries Value}
    (h : ∀ e ∈ es, ∃ name, S.problems d name keys (.string e.1) = .ok []) :
    (keyVisits focus path keys es).Holds (Visit.FitsOn S d focus) := by
  unfold keyVisits
  split
  · rename_i hf
    cases keys with
    | terminal t info =>
      refine Trace.holds_ofList.2 (List.forall_mem_map.2 fun key hk => .inl ⟨t, info, rfl, ?_⟩)
      obtain ⟨e, he, rfl⟩ := List.mem_map.1 hk
      obtain ⟨name, hx⟩ := h e he
      rw [problems, problemsWhile_terminal] at hx
      exact terminalProblems_eq_nil_iff.1 hx
    | _ => nomatch hf
  · exact Trace.holds_nil

/-- At every level of the descent, a walk by specs whose comparison finds no problem meets no error,
and visits values that fit. -/
theorem visits_fitOn (focus : Focus) :
    S.Descent
      (fun present spec v => ∀ name, S.problemsWhile d present name spec v = .ok [] →
        ∀ path, (S.visitsWhile focus present path spec v).Holds (Visit.FitsOn S d focus))
      (fun present fields v => ∀ lead, S.fieldProblemsWhile d present lead fields v = .ok [] →
        ∀ path, (S.fieldVisitsWhile focus present path fields v).Holds
          (Visit.FitsOn S d focus)) where
  terminal present t info v name hx path := by
    rw [problemsWhile_terminal, terminalProblems_eq_nil_iff] at hx
    rw [visitsWhile_terminal]
    split
    · exact Trace.holds_ofList.2 (List.forall_mem_singleton.2 (.inl ⟨t, info, rfl, hx⟩))
    · exact Trace.holds_nil
  list present items info v ih name hx path := by
    obtain ⟨vs, hv, hx⟩ := (S.problemsWhile_list_eq_nil_iff d present name).1 hx
    rw [visitsWhile_list_eq, hv]
    refine Trace.holds_each.2 fun m hm => ?_
    exact ih vs hv m.1 (List.fst_mem_of_mem_zipIdx hm) _ (hx m hm) _
  dictionary present keys values info v ih name hx path := by
    obtain ⟨es, hv, hx⟩ := (S.problemsWhile_dictionary_eq_nil_iff d present name).1 hx
    rw [visitsWhile_dictionary_eq, hv]
    refine Trace.holds_append.2 ⟨?_, Trace.holds_each.2 fun e he => ?_⟩
    · exact keyVisits_fit focus path fun e he => ⟨_, (hx e he).1⟩
    · exact (ih es hv e he).2 _ (hx e he).2 _
  object present fields info v ih name hx path := by
    rw [problemsWhile_object] at hx
    rw [visitsWhile_object]
    exact ih _ hx path
  component present kind info v ih name hx path := by
    obtain ⟨c, variant, chosen, hc, hv, hn, hk, hx, -⟩ :=
      (S.problemsWhile_component_eq_nil_iff d present name).1 hx
    rw [visitsWhile_component_eq, hc]
    refine Trace.holds_append.2 ⟨?_, ?_⟩
    · split
      · rename_i ht
        exact Trace.holds_ofList.2 (List.forall_mem_singleton.2 (.inr ⟨kind, info, rfl, ht⟩))
      · exact Trace.holds_nil
    dsimp only
    rw [if_neg hk]
    split
    · rw [classAt_eq hv hn]
      exact ih c hc hk _ _ hx path
    · exact Trace.holds_nil
  fields present fields v lone parts lead hx path := by
    rw [fieldVisitsWhile_eq]
    rcases hl : fields.lone? with _ | spec
    · obtain ⟨es, hv, hx, -⟩ := (S.fieldProblemsWhile_object_eq_nil_iff d present lead hl).1 hx
      rw [hv]
      refine Trace.holds_each.2 fun f hm => ?_
      rcases hw : es.lookup f.1 with _ | w
      · exact Trace.holds_nil
      · have hp := hx f hm
        rw [hw] at hp
        exact parts es hv f hm w hw _ hp _
    · rw [fieldProblemsWhile_lone S d present hl] at hx
      exact lone spec hl _ hx path

/-! ## Walks through a script -/

/-- A walk through a script goes through the resources of its collections. -/
theorem holds_findings_iff {focus : Focus} {p : Finding → Prop} :
    (S.findings focus d).Holds p ↔
      ∀ name vs, (name, .array vs) ∈ d.entries → name ≠ Script.metaKey →
        ∀ type c, S.resourceFor? name = some (type, c) → ∀ m ∈ vs.zipIdx,
          (S.fieldVisits focus "" c.fields m.1).Holds
            fun visit => p ⟨⟨name, m.2⟩, nameOf? m.1, visit⟩ := by
  constructor
  · intro h name vs he hm type c hc m hv
    have hx := Trace.holds_each.1 h _ he
    rw [entryFindings, if_neg hm, hc] at hx
    exact Trace.holds_map.1 (Trace.holds_each.1 hx m hv)
  · intro h
    refine Trace.holds_each.2 fun entry he => ?_
    obtain ⟨name, v⟩ := entry
    unfold entryFindings
    dsimp only
    split
    · exact Trace.holds_nil
    rename_i hm
    split
    · rename_i type c vs hc
      exact Trace.holds_each.2 fun m hv => Trace.holds_map.2 (h name vs he hm type c hc m hv)
    · exact Trace.holds_nil

/-- In an accepted script an array is a collection, since the `meta` block is none. -/
theorem mem_names_of_array? {r : Requirements} (h : S.validate d r = .ok ()) {name : String}
    {vs : List Value} (ha : d.array? name = some vs) : name ∈ d.names := by
  obtain ⟨block, hb, -⟩ := metaIssues_eq_nil_iff.1 (validate_eq_ok_iff.1 h).1
  obtain ⟨v, hv, hvs⟩ := Option.bind_eq_some_iff.1 ha
  have hm : name ≠ Script.metaKey := by
    rintro rfl
    obtain rfl := Option.some.inj (hb.symm.trans hv)
    nomatch hvs
  exact List.mem_filter.2 ⟨List.mem_map_of_mem (mem_of_lookup hv), bne_iff_ne.2 hm⟩

/-- The resources of an accepted script have no problems by the class of their collection. -/
theorem classProblems_of_validate {r : Requirements} (h : S.validate d r = .ok ())
    {name type : String} {c : Class} {vs : List Value} (ha : d.array? name = some vs)
    (hc : S.resourceFor? name = some (type, c)) :
    ∀ v ∈ vs, S.classProblems d "" c v = .ok [] := by
  obtain ⟨vs', ha', hx⟩ := collectionIssues_eq_nil_iff.1
    ((contentIssues_eq_nil_iff.1 (validate_eq_ok_iff.1 h).2).1 name (mem_names_of_array? h ha))
  obtain rfl := Option.some.inj (ha.symm.trans ha')
  rw [hc] at hx
  exact hx.2

/-- **A walk through an accepted script meets no error and visits values that fit.** -/
theorem findings_fitOn {r : Requirements} (h : S.validate d r = .ok ()) (hd : d.entries.Distinct)
    (focus : Focus) : (S.findings focus d).Holds fun f => f.visit.FitsOn S d focus := by
  refine holds_findings_iff.2 fun name vs he hm type c hc m hv => ?_
  have ha := array?_of_mem hd he
  have hx := classProblems_of_validate h ha hc m.1 (List.fst_mem_of_mem_zipIdx hv)
  rw [classProblems_eq, Search.both_eq_nil_iff] at hx
  exact (visits_fitOn focus).fieldsOf [] c.fields m.1 "" hx.1 ""

/-- A walk that takes no instances of components visits terminal values only. -/
theorem findings_fit {r : Requirements} (h : S.validate d r = .ok ()) (hd : d.entries.Distinct)
    (focus : Focus) (hf : ∀ kind, focus.takesComponent kind = false) :
    (S.findings focus d).Holds fun f => f.visit.Fits S d := by
  obtain ⟨he, hfit⟩ := findings_fitOn h hd focus
  refine ⟨he, fun f hm => (hfit f hm).resolve_right ?_⟩
  rintro ⟨kind, info, -, ht⟩
  nomatch (hf kind).symm.trans ht

/-! ## Integrity -/

/-- What an author can rely on. -/
structure Integrity (S : Schema) (d : Script) : Prop where
  /-- A walk through all terminal values meets no error. -/
  walk : (S.findings .terminal d).error = none
  /-- Whatever it visits has no problems. -/
  fits : ∀ f ∈ (S.findings .terminal d).seen,
    S.problems d f.visit.path f.visit.spec f.visit.value = .ok []
  /-- References name resources that are there. -/
  references : ∃ rs, S.references d = .ok rs ∧
    ∀ x ∈ rs, d.defines x.collection x.name = true
  /-- A visited id belongs to an instance. -/
  instances : ∀ f ∈ (S.findings .terminal d).seen, ∀ kind info,
    f.visit.spec = .terminal (.instanceId kind) info →
      ∃ id i, f.visit.value.int64? = some id ∧ S.locate d kind id = .ok (some i)

theorem references_eq (h : (S.findings .reference d).error = none) :
    S.references d = .ok ((S.findings .reference d).seen.filterMap Finding.reference?) := by
  rw [references, Trace.result, h]
  rfl

/-- A reference that fits names a resource that is there. -/
theorem defines_of_fits {f : Finding} (h : f.visit.Fits S d) {x : Reference}
    (hx : f.reference? = some x) : d.defines x.collection x.name = true := by
  obtain ⟨⟨collection, name⟩, hn, rfl⟩ := Option.map_eq_some_iff.1 hx
  obtain ⟨t, info, hs, hfit⟩ := h
  unfold Visit.named? at hn
  rw [hs] at hn
  split at hn
  · rename_i collection' special nullable info' name' hs' hv'
    obtain ⟨rfl, rfl⟩ := Spec.terminal.inj hs'
    rw [hv'] at hfit
    split at hn
    · nomatch hn
    · rename_i hne
      obtain ⟨rfl, rfl⟩ := Prod.mk.inj (Option.some.inj hn)
      cases hfit with
      | special hm => exact absurd (.inr (List.any_eq_true.2 ⟨_, hm, beq_self_eq_true _⟩)) hne
      | named _ hd => exact hd
  · nomatch hn

/-- **An accepted script holds together.** -/
theorem integrity_of_validate (d : Script) (r : Requirements) (hd : d.entries.Distinct)
    (h : S.validate d r = .ok ()) : S.Integrity d := by
  obtain ⟨herr, hfit⟩ := findings_fit h hd .terminal fun _ => rfl
  obtain ⟨herr', hfit'⟩ := findings_fit h hd .reference fun _ => rfl
  refine
    { walk := herr
      fits := fun f hf => ?_
      references := ⟨_, references_eq herr', fun x hx => ?_⟩
      instances := fun f hf kind info hs => ?_ }
  · obtain ⟨t, info, hs, ht⟩ := hfit f hf
    rw [hs, problems, problemsWhile_terminal]
    exact terminalProblems_eq_nil_iff.2 ht
  · obtain ⟨f, hf, hx⟩ := List.mem_filterMap.1 hx
    exact defines_of_fits (hfit' f hf) hx
  · obtain ⟨t, info', hs', ht⟩ := hfit f hf
    obtain ⟨rfl, rfl⟩ := Spec.terminal.inj (hs.symm.trans hs')
    cases ht with
    | instanceId hi hl => exact ⟨_, _, hi, hl⟩

theorem integrity_twoScenes : twoScenes.entries.Distinct ∧
    scenes.validate twoScenes ⟨1, true⟩ = .ok () ∧ scenes.Integrity twoScenes :=
  have hd : twoScenes.entries.Distinct := by decide
  ⟨hd, validate_twoScenes, integrity_of_validate twoScenes ⟨1, true⟩ hd validate_twoScenes⟩

end Schema

end ScriptSchema
