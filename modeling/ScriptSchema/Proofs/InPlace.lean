import ScriptSchema.Proofs.Apart
import ScriptSchema.Proofs.HandOn

/-!
# Editing in place

The editing walk by a spec, with a gentle editor, only writes at the spots of the walk. Like the
walk it goes into the parts of a value, but by a depth where the walk counts the components that
describe the value. Two cases are left apart by that: a depth that is not enough, and a component
that hands the value on to itself, for which no depth is. What depth is enough depends on the value
alone, and not on the editor or on what it leaves.

* `edit_list`, `edit_component`, …: the editing walk level by level;
* **`edit_of_not_settles`**: a value that is handed on for ever is edited ever deeper;
* `Schema.EditsInPlace`, **`editsInPlace_descent`**: the editing walk by a spec only writes;
* `Schema.EditsScriptInPlace`, **`exists_editsScriptInPlace`**: the same for a script.
-/

namespace ScriptSchema

variable {σ ε : Type}

namespace Schema

variable {S : Schema} {focus : Focus} {editor : Editor σ ε}

/-! ## Level by level -/

theorem fields_lone {fields : Fields} {spec : Spec} (hl : fields.lone? = some spec)
    (f : String → Spec → Value → σ → Edit σ ε Value) (path : String) (v : Value) (s : σ) :
    Edit.fields f path fields v s = f path spec v s := by
  unfold Edit.fields
  rw [hl]

theorem fields_object {fields : Fields} (hl : fields.lone? = none)
    (f : String → Spec → Value → σ → Edit σ ε Value) (path : String) (v : Value) (s : σ) :
    Edit.fields f path fields v s =
      match v.object? with
      | none => .keep v s
      | some es =>
        (Edit.declared (fun name => f (Path.field path name)) fields es s).map .object := by
  unfold Edit.fields
  rw [hl]
  cases v <;> rfl

theorem edit_list (depth : Nat) (path : String) (items : Spec) (info : Info) (v : Value) (s : σ) :
    S.edit focus editor (depth + 1) path (.list items info) v s =
      match v.array? with
      | none => .keep v s
      | some vs => (Edit.members (fun i v s =>
          S.edit focus editor depth (Path.item path i) items v s) 0 vs s).map .array := by
  cases v <;> rfl

theorem edit_dictionary (depth : Nat) (path : String) (keys values : Spec) (info : Info)
    (v : Value) (s : σ) :
    S.edit focus editor (depth + 1) path (.dictionary keys values info) v s =
      match v.object? with
      | none => .keep v s
      | some es =>
        ((if keys.terminal?.any focus.takes then Edit.keys editor path keys es s
          else .keep es s).andThen (Edit.members (fun _ e s =>
            (S.edit focus editor depth (Path.entry path e.1) values e.2 s).map (e.1, ·)) 0)).map
              .object := by
  cases v <;> rfl

theorem edit_component (S : Schema) (focus : Focus) (hg : editor.Gentle) (depth : Nat)
    (path kind : String) (info : Info) (v : Value) (s : σ) : ∃ s',
    S.edit focus editor (depth + 1) path (.component kind info) v s =
        (match S.components.find? kind with
        | none => .halt v s' (.schema (.unknownComponent kind))
        | some c =>
          if v.isObject then
            Edit.fields (S.edit focus editor depth) path (c.classAt v).fields v s'
          else .keep v s') ∧
      (if focus.takesComponent kind then
        Trace.ofList [⟨some [], ⟨path, .component kind info, false, v⟩⟩]
        else .nil).applied editor v s = .keep v s' := by
  obtain ⟨s', ha, ht⟩ := Edit.exists_ask_eq_keep hg focus path kind info v s
  refine ⟨s', ?_, ht⟩
  rw [edit]
  simp only [ha]
  rfl

/-- A value that is handed on for ever is edited ever deeper. -/
theorem edit_of_not_settles (hg : editor.Gentle) {spec : Spec} {v : Value}
    (h : ¬ S.Settles Component.walkedFields? v spec) (depth : Nat) (path : String) (s : σ) :
    (S.edit focus editor depth path spec v s).stop = some .tooDeep := by
  induction depth generalizing spec path s with
  | zero => rfl
  | succ depth ih =>
    have hfields {fields : Fields} {info : Info} (s : σ)
        (h : ¬ S.Settles Component.walkedFields? v (.object fields info)) :
        (Edit.fields (S.edit focus editor depth) path fields v s).stop = some .tooDeep := by
      obtain ⟨next, hn, hx⟩ := exists_handsOn_of_not_settles h
      rw [fields_lone hn]
      exact ih hx path s
    obtain ⟨next, hn, hx⟩ := exists_handsOn_of_not_settles h
    cases spec with
    | object fields info =>
      rw [edit]
      exact hfields s h
    | component kind info =>
      obtain ⟨c, hc, hv, rfl⟩ := hn.exists_classAt
      obtain ⟨s', he, -⟩ := edit_component S focus hg depth path kind info v s
      rw [he]
      simp only [hc, hv, if_true]
      exact hfields s' hx
    | _ => cases hn

/-! ## Bounds on the depth -/

theorem exists_bound {α : Type} {as : List α} {p : α → Nat → Prop}
    (hmono : ∀ a m n, m ≤ n → p a m → p a n) (h : ∀ a ∈ as, ∃ n, p a n) :
    ∃ n, ∀ a ∈ as, p a n := by
  induction as with
  | nil => exact ⟨0, nofun⟩
  | cons a as ih =>
    obtain ⟨⟨m, hm⟩, hrest⟩ := List.forall_mem_cons.1 h
    obtain ⟨n, hn⟩ := ih hrest
    refine ⟨max m n, List.forall_mem_cons.2 ⟨?_, fun b hb => ?_⟩⟩
    · exact hmono a m _ (Nat.le_max_left m n) hm
    · exact hmono b n _ (Nat.le_max_right m n) (hn b hb)

variable (S focus) in
/-- Whatever a gentle editor does, from the depth on the editing walk only writes, at the spots of
the walk; up to there it does the same or goes too deep. -/
def EditsInPlace (present : List String) (spec : Spec) (v : Value) (n : Nat) : Prop :=
  ∀ (σ ε : Type) (editor : Editor σ ε), editor.Gentle → ∀ depth path s,
    (S.edit focus editor depth path spec v s).Follows (n ≤ depth)
      ((S.spotsWhile focus present path spec v).applied editor v s)

variable (S focus) in
/-- The same by fields. -/
def EditsFieldsInPlace (present : List String) (fields : Fields) (v : Value) (n : Nat) : Prop :=
  ∀ (σ ε : Type) (editor : Editor σ ε), editor.Gentle → ∀ depth path s,
    (Edit.fields (S.edit focus editor depth) path fields v s).Follows (n ≤ depth)
      ((S.fieldSpotsWhile focus present path fields v).applied editor v s)

theorem EditsInPlace.mono {present : List String} {spec : Spec} {v : Value} {m n : Nat}
    (hmn : m ≤ n) (h : S.EditsInPlace focus present spec v m) :
    S.EditsInPlace focus present spec v n :=
  fun σ ε editor hg depth path s => (h σ ε editor hg depth path s).mono (Nat.le_trans hmn)

/-- What holds one level down from a depth on holds from the next depth on. -/
theorem EditsInPlace.of_succ {present : List String} {spec : Spec} {v : Value} {n : Nat}
    (h : ∀ (σ ε : Type) (editor : Editor σ ε), editor.Gentle → ∀ depth path s,
      (S.edit focus editor (depth + 1) path spec v s).Follows (n ≤ depth)
        ((S.spotsWhile focus present path spec v).applied editor v s)) :
    S.EditsInPlace focus present spec v (n + 1) := by
  intro σ ε editor hg depth path s
  cases depth with
  | zero => exact .inr ⟨rfl, fun hn => absurd hn (Nat.not_succ_le_zero n)⟩
  | succ depth => exact (h σ ε editor hg depth path s).mono Nat.le_of_succ_le_succ

/-- An instance is left as it is, so that only what follows it matters. -/
theorem EditsInPlace.of_component {present : List String} {kind : String} {info : Info} {v : Value}
    {n : Nat} (h : ∀ (σ ε : Type) (editor : Editor σ ε), editor.Gentle → ∀ depth path s,
      (match S.components.find? kind with
        | none => .halt v s (.schema (.unknownComponent kind))
        | some c =>
          if v.isObject then Edit.fields (S.edit focus editor depth) path (c.classAt v).fields v s
          else .keep v s : Edit σ ε Value).Follows (n ≤ depth)
        ((match S.components.find? kind with
          | none => .fail (.unknownComponent kind)
          | some c =>
            if v.isObject then
              if kind ∈ present then .fail (.circular kind)
              else S.fieldSpotsWhile focus (kind :: present) path (c.classAt v).fields v
            else .nil : Trace (Spot Visit)).applied editor v s)) :
    S.EditsInPlace focus present (.component kind info) v (n + 1) := by
  refine .of_succ fun σ ε editor hg depth path s => ?_
  obtain ⟨s', he, ht⟩ := edit_component S focus hg depth path kind info v s
  rw [spotsWhile_component_eq, Trace.applied_append, ht, he]
  exact h σ ε editor hg depth path s'

/-! ## The induction -/

theorem editsInPlace_descent (hS : S.Distinct) :
    S.Descent
      (fun present spec v => spec.Distinct → S.LedTo Component.walkedFields? v present spec →
        ∃ n, S.EditsInPlace focus present spec v n)
      (fun present fields v => (Spec.object fields .plain).Distinct →
        (∀ spec, fields.lone? = some spec → S.LedTo Component.walkedFields? v present spec) →
          ∃ n, S.EditsFieldsInPlace focus present fields v n) where
  terminal present t info v _ _ := by
    refine ⟨0 + 1, .of_succ fun σ ε editor hg depth path s => ?_⟩
    rw [spotsWhile_terminal, edit]
    split
    · rw [Edit.ask_eq_applied hg]
      exact .refl _
    · exact .refl _
  list present items info v ih hd _ := by
    rcases hv : v.array? with _ | vs
    · refine ⟨0 + 1, .of_succ fun σ ε editor hg depth path s => ?_⟩
      rw [spotsWhile_list_eq, hv, edit_list, hv]
      exact .refl _
    · obtain ⟨n, hn⟩ := exists_bound (p := S.EditsInPlace focus [] items)
        (fun w m n hmn => EditsInPlace.mono hmn)
        fun w hw => ih vs hv w hw hd (ledTo_nil items)
      refine ⟨n + 1, .of_succ fun σ ε editor hg depth path s => ?_⟩
      obtain rfl := array_of_array? hv
      rw [spotsWhile_list_eq, edit_list]
      exact Edit.items_follow (fun i w hw s => hn w hw σ ε editor hg depth _ s) s
  dictionary present keys values info v ih hd _ := by
    rcases hv : v.object? with _ | es
    · refine ⟨0 + 1, .of_succ fun σ ε editor hg depth path s => ?_⟩
      rw [spotsWhile_dictionary_eq, hv, edit_dictionary, hv]
      exact .refl _
    · obtain ⟨n, hn⟩ := exists_bound (p := fun e => S.EditsInPlace focus [] values e.2)
        (fun e m n hmn => EditsInPlace.mono hmn)
        fun e he => (ih es hv e he).2 hd.2 (ledTo_nil values)
      refine ⟨n + 1, .of_succ fun σ ε editor hg depth path s => ?_⟩
      obtain rfl := object_of_object? hv
      obtain ⟨s', hk, ht⟩ := Edit.exists_keys_eq_keep hg focus path keys es s
      rw [spotsWhile_dictionary_eq, edit_dictionary]
      dsimp only [Value.object?]
      rw [hk, Trace.applied_append, ht]
      refine Edit.entries_follow (fun i e he s => ?_) s'
      exact (hn e he σ ε editor hg depth _ s).map _
  object present fields info v ih hd hp := by
    obtain ⟨n, hn⟩ := ih hd fun spec hl => hp.tail hl
    refine ⟨n + 1, .of_succ fun σ ε editor hg depth path s => ?_⟩
    rw [spotsWhile_object, edit]
    exact hn σ ε editor hg depth path s
  component present kind info v ih hd hp := by
    rcases hc : S.components.find? kind with _ | c
    · refine ⟨0 + 1, .of_component fun σ ε editor hg depth path s => ?_⟩
      simp only [hc]
      exact .refl _
    by_cases hv : v.isObject
    · by_cases hk : kind ∈ present
      · refine ⟨0, fun σ ε editor hg depth path s => ?_⟩
        refine .inr ⟨edit_of_not_settles hg (hp.not_settles hk) depth path s, fun _ => ?_⟩
        obtain ⟨s', -, ht⟩ := edit_component S focus hg depth path kind info v s
        rw [spotsWhile_component_eq, Trace.applied_append, ht]
        simp only [hc, hv, hk, if_true]
        rfl
      · have hn := handsOn_component hc (c.walkedFields?_of_isObject hv) info
        obtain ⟨n, hf⟩ := ih c hc hk (c.classAt v).fields (hS.classAt hc v)
          fun spec hl => (hp.component hn).tail hl
        refine ⟨n + 1, .of_component fun σ ε editor hg depth path s => ?_⟩
        simp only [hc, hv, hk, if_true, if_false]
        exact hf σ ε editor hg depth path s
    · refine ⟨0 + 1, .of_component fun σ ε editor hg depth path s => ?_⟩
      simp only [hc, hv, if_false, Bool.false_eq_true]
      exact .refl _
  fields present fields v lone parts hd hp := by
    rcases hl : fields.lone? with _ | spec
    · rcases hv : v.object? with _ | es
      · refine ⟨0, fun σ ε editor hg depth path s => ?_⟩
        rw [fields_object hl, fieldSpotsWhile_eq, hl, hv]
        exact .refl _
      · have hparts (f : String × Spec) (hf : f ∈ fields) :
            ∃ n, ∀ w, es.lookup f.1 = some w → S.EditsInPlace focus [] f.2 w n := by
          rcases hw : es.lookup f.1 with _ | w
          · exact ⟨0, fun w hw => absurd hw (Option.some_ne_none w).symm⟩
          · obtain ⟨n, hn⟩ := parts es hv f hf w hw (Spec.eachDistinct_iff.1 hd.2 f hf)
              (ledTo_nil f.2)
            exact ⟨n, fun w' hw' => Option.some.inj hw' ▸ hn⟩
        obtain ⟨n, hn⟩ := exists_bound (fun f m n hmn h w hw => (h w hw).mono hmn) hparts
        refine ⟨n, fun σ ε editor hg depth path s => ?_⟩
        obtain rfl := object_of_object? hv
        rw [fields_object hl, fieldSpotsWhile_eq, hl]
        exact Edit.declared_follows hd.1
          (fun f hf w hw s => hn f hf w hw σ ε editor hg depth (Path.field path f.1) s)
          rfl (fun _ _ => rfl) s
    · obtain ⟨n, hn⟩ := lone spec hl (hd.lone hl) (hp spec hl)
      refine ⟨n, fun σ ε editor hg depth path s => ?_⟩
      rw [fields_lone hl, fieldSpotsWhile_eq, hl]
      exact hn σ ε editor hg depth path s

/-! ## Scripts -/

variable (S focus) in
/-- The same for a resource of a collection, wherever in it the resource stands. -/
def EditsMemberInPlace (collection : String) (fields : Fields) (v : Value) (n : Nat) : Prop :=
  ∀ (σ ε : Type) (editor : PlacedEditor σ ε), editor.Gentle → ∀ i depth s,
    (S.editFields focus (editor ⟨collection, i⟩ (nameOf? v)) depth "" fields v s).Follows
      (n ≤ depth) ((S.memberSpots focus collection fields (v, i)).applied editor.reply v s)

variable (S focus) in
/-- The same for an entry of a script. -/
def EditsEntryInPlace (entry : String × Value) (n : Nat) : Prop :=
  ∀ (σ ε : Type) (editor : PlacedEditor σ ε), editor.Gentle → ∀ depth s,
    (S.editEntry focus editor depth entry s).Follows (n ≤ depth)
      (((S.entrySpots focus entry).applied editor.reply entry.2 s).map (entry.1, ·))

variable (S focus) in
/-- The same for a script. -/
def EditsScriptInPlace (d : Script) (n : Nat) : Prop :=
  ∀ (σ ε : Type) (editor : PlacedEditor σ ε), editor.Gentle → ∀ depth s,
    ((S.editScript focus editor depth d s).map Script.value).Follows (n ≤ depth)
      ((S.scriptSpots focus d).applied editor.reply d.value s)

theorem exists_editsMemberInPlace (hS : S.Distinct) {fields : Fields}
    (hf : (Spec.object fields .plain).Distinct) (collection : String) (v : Value) :
    ∃ n, S.EditsMemberInPlace focus collection fields v n := by
  obtain ⟨n, hn⟩ := (S.editsInPlace_descent hS).fieldsOf [] fields v hf fun spec _ => ledTo_nil spec
  refine ⟨n, fun σ ε editor hg i depth s => ?_⟩
  rw [memberSpots, Trace.applied_map]
  exact hn σ ε _ (hg _ _) depth "" s

theorem exists_editsEntryInPlace (hS : S.Distinct) (entry : String × Value) :
    ∃ n, S.EditsEntryInPlace focus entry n := by
  obtain ⟨name, v⟩ := entry
  unfold EditsEntryInPlace editEntry entrySpots
  dsimp only
  by_cases hm : name = Script.metaKey
  · simp only [hm, if_true]
    exact ⟨0, fun σ ε editor hg depth s => .refl _⟩
  simp only [hm, if_false]
  rcases hc : S.resourceFor? name with _ | ⟨type, c⟩
  · exact ⟨0, fun σ ε editor hg depth s => .refl _⟩
  cases v with
  | array vs =>
    have hd : (Spec.object c.fields .plain).Distinct := hS c (S.describes_of_resourceFor hc)
    obtain ⟨n, hn⟩ := exists_bound (p := S.EditsMemberInPlace focus name c.fields)
      (fun v m n hmn h σ ε editor hg i depth s =>
        (h σ ε editor hg i depth s).mono (Nat.le_trans hmn))
      fun v (_ : v ∈ vs) => exists_editsMemberInPlace hS hd name v
    refine ⟨n, fun σ ε editor hg depth s => ?_⟩
    exact (Edit.items_follow (fun i v hv s => hn v hv σ ε editor hg i depth s) s).map (name, ·)
  | _ => exact ⟨0, fun σ ε editor hg depth s => .refl _⟩

/-- **The editing walk through a script only writes**, at the spots of the walk. -/
theorem exists_editsScriptInPlace (hS : S.Distinct) (focus : Focus) (d : Script) :
    ∃ n, S.EditsScriptInPlace focus d n := by
  obtain ⟨n, hn⟩ := exists_bound (p := S.EditsEntryInPlace focus)
    (fun entry m n hmn h σ ε editor hg depth s =>
      (h σ ε editor hg depth s).mono (Nat.le_trans hmn))
    fun entry (_ : entry ∈ d.entries) => exists_editsEntryInPlace hS entry
  refine ⟨n, fun σ ε editor hg depth s => ?_⟩
  exact Edit.entries_follow (fun i entry he s => hn entry he σ ε editor hg depth s) s

end Schema

end ScriptSchema
