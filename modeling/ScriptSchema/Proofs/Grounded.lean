import ScriptSchema.Proofs.Returns

/-!
# Schemas by which all calls return

The check of a schema does not see to it that validation and walks return: a lone `self` may hand a
value back to the component that it came from. That this does not happen is what has to be asked of
a schema beside the check.

* `Schema.Grounded`: no component hands a value on to itself;
* `Settles.walked`: what validation does not hand on for ever a walk does not either;
* **`returns_of_grounded`**, `exists_not_returns`: all calls return if the schema is grounded, and
  only then;
* `grounded_of_lone`: schemas without a lone `self`;
* **`returns_iff`**: when calls by a checked schema return;
* `not_returns_of_check`: the check alone is not enough.
-/

namespace ScriptSchema

namespace Schema

variable {S : Schema} {d : Script}

/-! ## Schemas whose calls all return -/

variable (S) in
/-- No component hands a value on to itself. -/
def Grounded : Prop := ∀ v kind i j, ¬ Relation.TransGen (S.HandsOn Component.comparedFields? v)
  (.component kind i) (.component kind j)

theorem settles_descent (h : S.Grounded) :
    S.Descent
      (fun present spec v => S.LedTo Component.comparedFields? v present spec →
        S.Settles Component.comparedFields? v spec)
      (fun present fields v => ∀ info,
        S.LedTo Component.comparedFields? v present (.object fields info) →
          S.Settles Component.comparedFields? v (.object fields info)) where
  terminal present t info v _ := .intro _ nofun
  list present items info v _ _ := .intro _ nofun
  dictionary present keys values info v _ _ := .intro _ nofun
  object present fields info v ih hp := ih info hp
  component present kind info v ih hp := by
    refine .intro _ fun next hn => ?_
    obtain ⟨c, fields, hc, -, rfl⟩ := hn.exists_of_component
    have hk : kind ∉ present := fun hk => by
      obtain ⟨i, hi⟩ := hp kind hk
      exact h v kind i info hi
    exact ih c hc hk fields .plain (hp.component hn)
  fields present fields v lone _ info hp :=
    .intro _ fun next hn => lone next hn (hp.tail hn)

/-- The class of a walk is that of validation, or the value has not chosen a variant. -/
theorem comparedFields?_or_untagged (c : Component) (v : Value) :
    c.comparedFields? v = some (c.classAt v).fields ∨ c.classAt v = c.untagged := by
  rcases hv : c.choose v with _ | _ | variant
  · exact .inr (by rw [Component.classAt, hv])
  · exact .inr (by rw [Component.classAt, hv])
  rcases hx : c.variant? variant with _ | chosen
  · refine .inr ?_
    rw [Component.classAt, hv]
    dsimp only
    rw [Component.classNamed, Option.bind_some, hx, Option.getD_none]
  · refine .inl (Component.comparedFields?_eq_some_iff.2 ⟨variant, chosen, hv, hx, ?_⟩)
    rw [classAt_eq hv hx]

/-- What can hold the tag only hands a value on to the tag at most. -/
theorem settles_untagged (pick : Component → Value → Option Fields) (c : Component) (v : Value)
    (info : Info) : S.Settles pick v (.object c.untagged.fields info) := by
  refine .intro _ fun next hn => ?_
  rw [HandsOn, handOn?, Component.untagged, Component.tagFields] at hn
  dsimp only at hn
  split at hn
  · obtain ⟨-, hn⟩ := Option.ite_none_right_eq_some.1 hn
    obtain rfl := Option.some.inj hn
    exact .intro _ fun next hn => by cases hn
  · cases hn

/-- A walk hands a value on as validation does, but for values that have not chosen a variant. -/
theorem Settles.walked {v : Value} {spec : Spec} (h : S.Settles Component.comparedFields? v spec) :
    S.Settles Component.walkedFields? v spec := by
  induction h with
  | intro spec _ ih =>
    refine .intro spec fun next hn => ?_
    cases spec with
    | object fields info => exact ih next hn
    | component kind info =>
      obtain ⟨c, hc, -, rfl⟩ := hn.exists_classAt
      obtain hf | hu := comparedFields?_or_untagged c v
      · exact ih _ (handsOn_component hc hf info)
      · rw [hu]
        exact settles_untagged _ c v .plain
    | _ => nomatch hn

/-- In a grounded schema no value is handed on for ever. -/
theorem Grounded.settles (h : S.Grounded) (task : Task) (v : Value) (spec : Spec) :
    S.Settles task.pick v spec := by
  have hs := (settles_descent h).spec [] spec v (ledTo_nil spec)
  cases task with
  | validate => exact hs
  | walk => exact hs.walked

/-- If no value is handed on for ever, a task returns that asks for no others but such as do. -/
theorem returns_of_settles {task : Task} (hs : ∀ v spec, S.Settles task.pick v spec)
    (hw : task = .validate → ∀ spec v, S.Returns d ⟨.walk, spec, v⟩) (spec : Spec) (v : Value) :
    S.Returns d ⟨task, spec, v⟩ := by
  -- the parts of a value are smaller, and the value itself is not handed on for ever
  induction hn : sizeOf v using Nat.strong_induction_on generalizing spec v with
  | _ n ih =>
    subst hn
    induction hs v spec with
    | intro spec _ ihs =>
      refine .intro _ fun next hc => ?_
      cases hc with
      | item hv hm => exact ih _ (sizeOf_item hv hm) _ _ rfl
      | key hv he => exact ih _ (sizeOf_entry hv he).1 _ _ rfl
      | value hv he => exact ih _ (sizeOf_entry hv he).2 _ _ rfl
      | field hl hv hf hw => exact ih _ (sizeOf_entry hv (mem_of_lookup hw)).2 _ _ rfl
      | handOn hn => exact ihs _ hn
      | instanceId hi hk he hm hc hw' => exact hw rfl _ _

/-- **All calls return in a grounded schema**, whatever the script. -/
theorem returns_of_grounded (h : S.Grounded) (call : Call) : S.Returns d call := by
  have hwalk (spec : Spec) (v : Value) : S.Returns d ⟨.walk, spec, v⟩ :=
    returns_of_settles (h.settles .walk) nofun spec v
  obtain ⟨_ | _, spec, v⟩ := call
  · exact returns_of_settles (h.settles .validate) (fun _ => hwalk) spec v
  · exact hwalk spec v

/-- In a schema that is not grounded, a component is compared with some value for ever. -/
theorem exists_not_returns (h : ¬ S.Grounded) :
    ∃ kind info v, S.Registers kind ∧
      ∀ d, ¬ S.Returns d ⟨.validate, .component kind info, v⟩ := by
  simp only [Grounded, not_forall, not_not] at h
  obtain ⟨v, kind, i, j, hcycle⟩ := h
  obtain ⟨next, hn, hback⟩ := Relation.TransGen.head'_iff.1 hcycle
  obtain ⟨c, -, hc, -, -⟩ := hn.exists_of_component
  refine ⟨kind, j, v, Option.isSome_of_eq_some hc, fun d hr => ?_⟩
  -- what is said beside the kind does not matter to where the value goes
  have hstart : S.HandsOn Component.comparedFields? v (.component kind j) next := hn
  exact not_settles_of_cycle (.head' hstart hback) hr.settles

/-- A schema is grounded if no variant of its components has a lone `self`. -/
theorem grounded_of_lone (h : ∀ kind c, S.components.find? kind = some c → ∀ variant chosen,
    c.variant? variant = some chosen → chosen.fields.lone? = none) : S.Grounded := by
  intro v kind i j hcycle
  obtain ⟨next, hn, hback⟩ := Relation.TransGen.head'_iff.1 hcycle
  obtain ⟨c, fields, hc, hf, rfl⟩ := hn.exists_of_component
  obtain ⟨variant, chosen, -, hx, rfl⟩ := Component.comparedFields?_eq_some_iff.1 hf
  obtain heq | ⟨next, hn, -⟩ := Relation.ReflTransGen.cases_head hback
  · nomatch heq
  · exact absurd ((h kind c hc variant chosen hx).symm.trans hn) nofun

/-! ## Checked schemas -/

/-- **When validation and walks by a checked schema return**: a call returns if and only if its
outcome is not a circle, and all of them do if and only if no component hands a value on to
itself. -/
theorem returns_iff (S : Schema) (h : S.check = .ok ()) :
    (∀ d call, call.spec.Every S.Admits S.Registers → (S.Returns d call ↔ S.Ends d call)) ∧
      ((∀ d call, call.spec.Every S.Admits S.Registers → S.Returns d call) ↔ S.Grounded) := by
  have hS : S.Sound := S.sound_of_check h
  refine ⟨fun d call hc => ⟨fun hr => ends_of_returns hS hr hc, returns_of_ends⟩, fun hall => ?_,
    fun hg d call _ => returns_of_grounded hg call⟩
  refine Classical.byContradiction fun hg => ?_
  obtain ⟨kind, info, v, hk, hx⟩ := exists_not_returns hg
  exact hx .empty (hall .empty ⟨.validate, .component kind info, v⟩ hk)

theorem grounded_scenes : scenes.Grounded := by
  refine grounded_of_lone fun kind c hc variant chosen hx => ?_
  rcases List.mem_singleton.1 (mem_of_lookup hc) with ⟨⟩
  obtain ⟨own, ho, rfl⟩ := Option.map_eq_some_iff.1 hx
  rcases List.mem_cons.1 (mem_of_lookup ho) with h | h
  · cases h
    rfl
  · rcases List.mem_singleton.1 h with ⟨⟩
    rfl

theorem returns_iff_scenes : scenes.check = .ok () ∧ scenes.Grounded ∧
    ∀ d call, call.spec.Every scenes.Admits scenes.Registers → scenes.Returns d call :=
  ⟨rfl, grounded_scenes, (returns_iff scenes rfl).2.2 grounded_scenes⟩

/-- What is an object is described as what it is already. -/
def mirror : Component where
  kind := "mirror"
  tagging := .byRule "shape" jsonType
  shared := []
  variants := [("object", ⟨[("self", .component "mirror" .plain)], none⟩)]
  key_ne := by decide
  variants_ne := by decide
  distinct := by decide

/-- A schema with nothing but mirrors. -/
def mirrors : Schema := empty.addComponent mirror

/-- The check of a schema does not see to it that all calls return. -/
theorem not_returns_of_check : ¬ ∀ S : Schema, S.check = .ok () → ∀ d call,
    call.spec.Every S.Admits S.Registers → S.Returns d call := by
  intro h
  have hr := h mirrors rfl .empty ⟨.validate, .component "mirror" .plain, .object []⟩ rfl
  have hself : mirrors.HandsOn Component.comparedFields? (.object []) (.component "mirror" .plain)
      (.object [("self", .component "mirror" .plain)] .plain) := rfl
  have hback : mirrors.HandsOn Component.comparedFields? (.object [])
      (.object [("self", .component "mirror" .plain)] .plain) (.component "mirror" .plain) := rfl
  exact not_settles_of_cycle (.tail (.single hself) hback) hr.settles

end Schema

end ScriptSchema
