import ScriptSchema.Path
import ScriptSchema.Schema.Basic
import ScriptSchema.Visit.Basic

/-!
# Walking through a value

The walk goes through the parts of a value that a spec describes and collects the visits. An
instance of a component is visited before its fields, and the keys of a dictionary before its
values.

A field named `self`, and a component, describe the same value again. The walk therefore knows the
kinds of the components that are describing the present value: asked for one of them once more, it
would never end, and reports `SchemaFault.circular` instead.

* `Schema.idle`: the components that do not yet describe the present value;
* `Schema.visitsWhile`: the walk, given the kinds of those that do;
* `Schema.visits`, `Schema.fieldVisits`: the walk by a spec and by fields;
* `visitsWhile_component`, `declaredVisits_cons`, …: single steps of the walk;
* `Schema.resourceVisits`, `Schema.componentVisits`: the walk by a class of the schema;
* **`Schema.findings`**: the walk through a script.
-/

namespace ScriptSchema

/-! ## Why the walk ends -/

theorem sizeOf_lookup {α : Type u} [SizeOf α] {es : List (String × α)} {key : String} {a : α}
    (h : es.lookup key = some a) : sizeOf a < sizeOf es := by
  induction es with
  | nil => simp at h
  | cons e es ih =>
    obtain ⟨k, b⟩ := e
    rw [List.lookup_cons] at h
    split at h
    · simp only [Option.some.injEq] at h; subst h; simp; omega
    · have := ih h; simp; omega

theorem sizeOf_lone {fields : Fields} {spec : Spec} (h : fields.lone? = some spec) :
    sizeOf spec < sizeOf fields := by
  rw [Fields.lone?_eq_some_iff.1 h]
  simp
  omega

theorem countP_lt_countP {α : Type u} {p q : α → Bool} {as : List α} {a : α} (ha : a ∈ as)
    (h : ∀ b, p b = true → q b = true) (hq : q a = true) (hp : p a = false) :
    as.countP p < as.countP q := by
  induction as with
  | nil => contradiction
  | cons b as ih =>
    have hle : as.countP p ≤ as.countP q := List.countP_mono_left fun b _ => h b
    simp only [List.countP_cons]
    rcases List.mem_cons.1 ha with rfl | ha
    · simp only [hp, hq, Bool.false_eq_true, if_false, if_true]; omega
    · have hlt := ih ha
      have hb := h b
      cases hp : p b
      · simp only [Bool.false_eq_true, if_false]; omega
      · simp only [hb hp, if_true]; omega

namespace Schema

variable (S : Schema)

/-- How many component kinds are not among `present`. -/
def idle (present : List String) : Nat :=
  S.components.names.countP fun kind => decide (kind ∉ present)

theorem idle_cons_lt {present : List String} {kind : String} {c : Component}
    (hc : S.components.find? kind = some c) (hk : kind ∉ present) :
    S.idle (kind :: present) < S.idle present :=
  countP_lt_countP (Directory.mem_names hc)
    (fun k h => by simp only [List.mem_cons, not_or, decide_eq_true_eq] at h ⊢; exact h.2)
    (by simpa using hk) (by simp)

/-! ## The walk -/

/-- The visits of a dictionary's keys, if the focus takes them. -/
def keyVisits (focus : Focus) (path : String) (keys : Spec) (es : Entries Value) : Trace Visit :=
  if keys.terminal?.any focus.takes then
    .ofList (es.keys.map fun k => ⟨Path.entry path k, keys, true, .string k⟩)
  else .nil

mutual

/-- The walk through a value by a spec, while components of the present kinds describe the value. -/
def visitsWhile (focus : Focus) (present : List String) (path : String) (spec : Spec) (v : Value) :
    Trace Visit :=
  match spec with
  | .terminal t _ => if focus.takes t then .ofList [⟨path, spec, false, v⟩] else .nil
  | .list items _ =>
    match v with
    | .array vs => itemVisits focus path items 0 vs
    | _ => .nil
  | .dictionary keys values _ =>
    match v with
    | .object es => keyVisits focus path keys es ++ entryVisits focus path values es
    | _ => .nil
  | .object fields _ => fieldVisitsWhile focus present path fields v
  | .component kind _ =>
    (if focus.takesComponent kind then .ofList [⟨path, spec, false, v⟩] else .nil) ++
      match hc : S.components.find? kind with
      | none => .fail (.unknownComponent kind)
      | some c =>
        if !v.isObject then .nil
        else if hk : kind ∈ present then .fail (.circular kind)
        else
          have := S.idle_cons_lt hc hk
          fieldVisitsWhile focus (kind :: present) path (c.classAt v).fields v
termination_by (sizeOf v, S.idle present, sizeOf spec)

/-- The walk through items, the first of which has the given index. -/
def itemVisits (focus : Focus) (path : String) (spec : Spec) (index : Nat) (vs : List Value) :
    Trace Visit :=
  match vs with
  | [] => .nil
  | v :: vs =>
    visitsWhile focus [] (Path.item path index) spec v ++ itemVisits focus path spec (index + 1) vs
termination_by (sizeOf vs, 0, 0)

/-- The walk through the values of a dictionary. -/
def entryVisits (focus : Focus) (path : String) (spec : Spec) (es : List (String × Value)) :
    Trace Visit :=
  match es with
  | [] => .nil
  | (k, v) :: es =>
    visitsWhile focus [] (Path.entry path k) spec v ++ entryVisits focus path spec es
termination_by (sizeOf es, 0, 0)

/-- The walk through a value by fields, while components of the present kinds describe the value:
by the spec of a lone `self`, or through the declared entries of an object, in the order of the
fields. -/
def fieldVisitsWhile (focus : Focus) (present : List String) (path : String) (fields : Fields)
    (v : Value) : Trace Visit :=
  match hl : fields.lone? with
  | some spec =>
    have := sizeOf_lone hl
    visitsWhile focus present path spec v
  | none =>
    match v with
    | .object es => declaredVisits focus path fields es
    | _ => .nil
termination_by (sizeOf v, S.idle present, sizeOf fields)

/-- The walk through the entries that the fields declare. -/
def declaredVisits (focus : Focus) (path : String) (fields : List (String × Spec))
    (es : Entries Value) : Trace Visit :=
  match fields with
  | [] => .nil
  | (name, spec) :: fields =>
    (match hv : es.lookup name with
      | none => .nil
      | some v =>
        have := sizeOf_lookup hv
        visitsWhile focus [] (Path.field path name) spec v) ++
    declaredVisits focus path fields es
termination_by (sizeOf es, 0, sizeOf fields)

end

/-- **The walk through a value by a spec.** -/
def visits (focus : Focus) (path : String) (spec : Spec) (v : Value) : Trace Visit :=
  S.visitsWhile focus [] path spec v

/-- **The walk through a value by fields.** -/
def fieldVisits (focus : Focus) (path : String) (fields : Fields) (v : Value) : Trace Visit :=
  S.fieldVisitsWhile focus [] path fields v

/-! ## Single steps -/

variable (focus : Focus) (present : List String) (path : String)

theorem visitsWhile_terminal (t : Terminal) (info : Info) (v : Value) :
    S.visitsWhile focus present path (.terminal t info) v =
      if focus.takes t then .ofList [⟨path, .terminal t info, false, v⟩] else .nil := by
  rw [visitsWhile]

theorem visitsWhile_list (items : Spec) (info : Info) (vs : List Value) :
    S.visitsWhile focus present path (.list items info) (.array vs) =
      S.itemVisits focus path items 0 vs := by
  rw [visitsWhile]

theorem visitsWhile_dictionary (keys values : Spec) (info : Info) (es : List (String × Value)) :
    S.visitsWhile focus present path (.dictionary keys values info) (.object es) =
      keyVisits focus path keys es ++ S.entryVisits focus path values es := by
  rw [visitsWhile]

theorem visitsWhile_object (fields : Fields) (info : Info) (v : Value) :
    S.visitsWhile focus present path (.object fields info) v =
      S.fieldVisitsWhile focus present path fields v := by
  rw [visitsWhile]

/-- The walk goes on below an instance of a component that does not describe the value already. -/
theorem visitsWhile_component {kind : String} {c : Component} (info : Info) {v : Value}
    (hc : S.components.find? kind = some c) (hv : v.isObject = true) (hk : kind ∉ present) :
    S.visitsWhile focus present path (.component kind info) v =
      (if focus.takesComponent kind then .ofList [⟨path, .component kind info, false, v⟩]
        else .nil) ++
      S.fieldVisitsWhile focus (kind :: present) path (c.classAt v).fields v := by
  rw [visitsWhile]
  congr 1
  split
  · rename_i hc'
    exact absurd (hc.symm.trans hc') (by simp)
  · rename_i c' hc'
    obtain rfl : c = c' := Option.some.inj (hc.symm.trans hc')
    simp [hv, hk]

theorem itemVisits_cons (spec : Spec) (index : Nat) (v : Value) (vs : List Value) :
    S.itemVisits focus path spec index (v :: vs) =
      S.visits focus (Path.item path index) spec v ++
        S.itemVisits focus path spec (index + 1) vs := by
  rw [itemVisits, visits]

theorem entryVisits_cons (spec : Spec) (k : String) (v : Value) (es : List (String × Value)) :
    S.entryVisits focus path spec ((k, v) :: es) =
      S.visits focus (Path.entry path k) spec v ++ S.entryVisits focus path spec es := by
  rw [entryVisits, visits]

theorem fieldVisitsWhile_lone {fields : Fields} {spec : Spec} (h : fields.lone? = some spec)
    (v : Value) :
    S.fieldVisitsWhile focus present path fields v = S.visitsWhile focus present path spec v := by
  rw [fieldVisitsWhile.eq_def]
  split
  · rename_i spec' h'
    rw [Option.some.inj (h.symm.trans h')]
  · rename_i h'
    exact absurd (h.symm.trans h') (by simp)

theorem fieldVisitsWhile_object {fields : Fields} (h : fields.lone? = none)
    (es : List (String × Value)) :
    S.fieldVisitsWhile focus present path fields (.object es) =
      S.declaredVisits focus path fields es := by
  rw [fieldVisitsWhile]
  split
  · rename_i h'
    exact absurd (h.symm.trans h') (by simp)
  · rfl

theorem declaredVisits_cons (name : String) (spec : Spec) (fields : List (String × Spec))
    (es : List (String × Value)) :
    S.declaredVisits focus path ((name, spec) :: fields) es =
      ((es.lookup name).elim .nil (S.visits focus (Path.field path name) spec)) ++
        S.declaredVisits focus path fields es := by
  rw [declaredVisits]
  congr 1
  split
  · rename_i h
    rw [h]
    rfl
  · rename_i v h
    change S.visits focus (Path.field path name) spec v = _
    rw [h]
    rfl

/-! ## Where walks start -/

/-- The walk through a resource of a type; an unknown type has nothing to visit. -/
def resourceVisits (type : String) (v : Value) : Trace Visit :=
  match S.resources.find? type with
  | none => .nil
  | some c => S.fieldVisits focus "" c.fields v

/-- The walk through the fields of a component's instance, without the instance itself. -/
def componentVisits (kind : String) (v : Value) : Trace Visit :=
  match S.components.find? kind with
  | none => .fail (.unknownComponent kind)
  | some c => S.fieldVisitsWhile focus [kind] "" (c.classAt v).fields v

/-- The walk through one resource of a collection. -/
def memberFindings (collection : String) (fields : Fields) (member : Value × Nat) :
    Trace Finding :=
  (S.fieldVisits focus "" fields member.1).map
    fun visit => ⟨⟨collection, member.2⟩, nameOf? member.1, visit⟩

/-- The walk through the resources of an entry of a script. The `meta` block and entries without a
resource type have nothing to visit. -/
def entryFindings (entry : String × Value) : Trace Finding :=
  if entry.1 = Script.metaKey then .nil
  else
    match S.resourceFor? entry.1, entry.2 with
    | some (_, c), .array vs => .each (S.memberFindings focus entry.1 c.fields) vs.zipIdx
    | _, _ => .nil

/-- **The walk through a script.** -/
def findings (d : Script) : Trace Finding :=
  .each (S.entryFindings focus) d.entries

end Schema

end ScriptSchema
