import ScriptSchema.Proofs.Conforms
import ScriptSchema.Proofs.Sound

/-!
# What is reached within a value

Validation reaches every part of a value that its spec describes. A walk leaves two of its steps
out: it goes into keys of a dictionary only if their spec is terminal, and below a component only
if the value is an object. The relation of this module says for every part that validation reaches
whether the walk reaches it too.

* `Schema.Below`, `Schema.Reaches`: one step, and any number of them;
* `Schema.RefersTo`: a reference to a resource is reached;
* `Conforms.reaches`: what is reached in a conforming value conforms;
* **`holds_of_reaches`**: what the walk reaches, it visits;
* `Schema.SelfContained`, **`problems_carry`**: validation depends on the rest of the script by the
  references it reaches, and by nothing else.
-/

namespace ScriptSchema

namespace Schema

variable (S : Schema)

/-! ## The relation -/

/-- One step of the descent of validation. The walk takes it too, if the flag says so. -/
inductive Below : Bool → Spec → Value → Spec → Value → Prop
  | item {items : Spec} {info : Info} {vs : List Value} {w : Value} : w ∈ vs →
    Below true (.list items info) (.array vs) items w
  | key {keys values : Spec} {info : Info} {es : Entries Value} {e : String × Value} : e ∈ es →
    Below keys.terminal?.isSome (.dictionary keys values info) (.object es) keys (.string e.1)
  | value {keys values : Spec} {info : Info} {es : Entries Value} {e : String × Value} : e ∈ es →
    Below true (.dictionary keys values info) (.object es) values e.2
  | lone {fields : Fields} {info : Info} {spec : Spec} {v : Value} : fields.lone? = some spec →
    Below true (.object fields info) v spec v
  | field {fields : Fields} {info : Info} {es : Entries Value} {f : String × Spec} {w : Value} :
    fields.lone? = none → f ∈ fields → es.lookup f.1 = some w →
    Below true (.object fields info) (.object es) f.2 w
  | variant {kind variant : String} {info : Info} {c : Component} {chosen : Class} {v : Value} :
    S.components.find? kind = some c → c.choose v = .variant variant →
    c.variant? variant = some chosen →
    Below v.isObject (.component kind info) v (.object chosen.fields .plain) v

/-- Validation of the first spec with the first value reaches the second with the second. The walk
does so too, if the flag says so. -/
inductive Reaches : Bool → Spec → Value → Spec → Value → Prop
  | here {spec : Spec} {v : Value} : Reaches true spec v spec v
  | step {a b : Bool} {spec spec' spec'' : Spec} {v v' v'' : Value} : S.Below a spec v spec' v' →
    Reaches b spec' v' spec'' v'' → Reaches (a && b) spec v spec'' v''

/-- Validation reaches a reference to the resource. The walk does so too, if the flag says so. -/
def RefersTo (walked : Bool) (spec : Spec) (v : Value) (collection name : String) : Prop :=
  ∃ special nullable info,
    S.Reaches walked spec v (.terminal (.reference collection special nullable) info)
      (.string name) ∧ special.any (·.value == name) = false

variable {S}

theorem Below.refersTo {a b : Bool} {spec spec' : Spec} {v v' : Value} {collection name : String}
    (h : S.Below a spec v spec' v') (hr : S.RefersTo b spec' v' collection name) :
    S.RefersTo (a && b) spec v collection name := by
  obtain ⟨special, nullable, info, hr, hs⟩ := hr
  exact ⟨special, nullable, info, .step h hr, hs⟩

/-- A terminal spec reaches nothing else. -/
theorem Reaches.of_terminal {b : Bool} {t : Terminal} {info : Info} {spec : Spec} {v w : Value}
    (h : S.Reaches b (.terminal t info) v spec w) : spec = .terminal t info ∧ w = v := by
  cases h with
  | here => exact ⟨rfl, rfl⟩
  | step hb => nomatch hb

/-! ## Conforming values -/

variable {d : Script}

theorem Conforms.step {a : Bool} {spec spec' : Spec} {v v' : Value} (h : S.Conforms d spec v)
    (hb : S.Below a spec v spec' v') : S.Conforms d spec' v' := by
  cases hb with
  | item hw =>
    obtain ⟨_, hv, h⟩ := conforms_list_iff.1 h
    obtain rfl := Option.some.inj hv
    exact h _ hw
  | key he =>
    obtain ⟨_, hv, h⟩ := conforms_dictionary_iff.1 h
    obtain rfl := Option.some.inj hv
    exact (h _ he).1
  | value he =>
    obtain ⟨_, hv, h⟩ := conforms_dictionary_iff.1 h
    obtain rfl := Option.some.inj hv
    exact (h _ he).2
  | lone hl => exact (conforms_lone_iff hl).1 h
  | field hl hf hw =>
    obtain ⟨_, hv, -, h, -⟩ := (conforms_object_iff hl).1 h
    obtain rfl := Option.some.inj hv
    exact h _ hf _ hw
  | variant hc hv hx =>
    obtain ⟨c, variant, chosen, hc', hv', hx', h⟩ := conforms_component_iff.1 h
    obtain rfl := Option.some.inj (hc.symm.trans hc')
    obtain rfl := Choice.variant.inj (hv.symm.trans hv')
    obtain rfl := Option.some.inj (hx.symm.trans hx')
    exact h.fields

/-- What is reached in a conforming value conforms. -/
theorem Conforms.reaches {b : Bool} {spec spec' : Spec} {v v' : Value} (h : S.Conforms d spec v)
    (hr : S.Reaches b spec v spec' v') : S.Conforms d spec' v' := by
  induction hr with
  | here => exact h
  | step hb _ ih => exact ih (h.step hb)

/-- A reference that is reached in a conforming value is a name, and the name of a resource. -/
theorem Conforms.refersTo {b : Bool} {spec : Spec} {v : Value} {collection name : String}
    (h : S.Conforms d spec v) (hr : S.RefersTo b spec v collection name) :
    IsName name ∧ d.defines collection name = true := by
  obtain ⟨special, nullable, info, hr, hs⟩ := hr
  cases conforms_terminal_iff.1 (h.reaches hr) with
  | special hx => exact absurd (beq_self_eq_true _) (List.any_eq_false.1 hs _ hx)
  | named hn hd => exact ⟨hn, hd⟩

/-! ## Walks -/

/-- A property of all visits holds of the visit of a terminal part that the walk reaches. -/
theorem holds_of_reaches {focus : Focus} {p : Visit → Prop} {b : Bool} {spec : Spec} {v w : Value}
    {t : Terminal} {info : Info} (hr : S.Reaches b spec v (.terminal t info) w) (hb : b = true)
    (ht : focus.takes t = true) (present : List String) (path : String)
    (h : (S.visitsWhile focus present path spec v).Holds p) :
    ∃ path onKey, p ⟨path, .terminal t info, onKey, w⟩ := by
  generalize hs : Spec.terminal t info = s at hr
  induction hr generalizing present path with
  | here =>
    subst hs
    rw [visitsWhile_terminal, if_pos ht, Trace.holds_ofList] at h
    exact ⟨path, false, h _ List.mem_cons_self⟩
  | @step a b spec spec' spec'' v v' v'' hbelow hrest ih =>
    obtain ⟨ha, hb'⟩ := Bool.and_eq_true_iff.1 hb
    cases hbelow with
    | item hw =>
      rw [visitsWhile_list_eq] at h
      obtain ⟨i, hi⟩ := List.getElem?_of_mem hw
      exact ih hb' [] _ (Trace.holds_each.1 h _ (List.mk_mem_zipIdx_iff_getElem?.2 hi)) hs
    | key he =>
      cases spec' with
      | terminal t' info' =>
        -- the walk visits the key itself
        obtain ⟨rfl, rfl⟩ := hrest.of_terminal
        obtain ⟨rfl, rfl⟩ := Spec.terminal.inj hs
        rw [visitsWhile_dictionary_eq] at h
        have hk := (Trace.holds_append.1 h).1
        have htakes : (Spec.terminal t info).terminal?.any focus.takes = true := ht
        rw [keyVisits, if_pos htakes, Trace.holds_ofList, List.forall_mem_map] at hk
        exact ⟨_, true, hk _ (List.mem_map_of_mem he)⟩
      | _ => nomatch ha
    | value he =>
      rw [visitsWhile_dictionary_eq] at h
      exact ih hb' [] _ (Trace.holds_each.1 (Trace.holds_append.1 h).2 _ he) hs
    | lone hl =>
      rw [visitsWhile_object, fieldVisitsWhile_lone S focus present path hl] at h
      exact ih hb' present path h hs
    | field hl hf hw =>
      rw [visitsWhile_object, fieldVisitsWhile_eq, hl] at h
      have hx := Trace.holds_each.1 h _ hf
      rw [hw] at hx
      exact ih hb' [] _ hx hs
    | @variant kind _ _ _ _ _ hc hv hx =>
      rw [visitsWhile_component_eq, hc] at h
      have hd := (Trace.holds_append.1 h).2
      dsimp only at hd
      rw [if_pos ha] at hd
      by_cases hk : kind ∈ present
      · rw [if_pos hk] at hd
        nomatch hd.1
      · rw [if_neg hk, classAt_eq hv hx, ← visitsWhile_object] at hd
        exact ih hb' _ path hd hs

/-! ## Other scripts -/

/-- No hook and no reference to an instance looks at the rest of the script. -/
structure SelfContained (S : Schema) : Prop where
  hook : ∀ c, S.Describes c → c.hook = none
  ids : ∀ c, S.Describes c →
    Spec.EveryField (fun t => ∀ kind, t ≠ .instanceId kind) (fun _ => True) c.fields

variable {d' : Script} {collection name : String}

theorem fits_carry {t : Terminal} {info : Info} {v : Value}
    (hdef : ∀ c n, d.defines c n = true → (c = collection → n ≠ name) → d'.defines c n = true)
    (ht : ∀ kind, t ≠ .instanceId kind)
    (hn : ∀ b, ¬ S.RefersTo b (.terminal t info) v collection name)
    (h : S.Fits d info.required t v) : S.Fits d' info.required t v := by
  cases h with
  | scalar h => exact .scalar h
  | enum h => exact .enum h
  | special h => exact .special h
  | null => exact .null
  | instanceId => exact absurd rfl (ht _)
  | @named c special nullable n hname hd =>
    rcases hs : special.any (·.value == n) with _ | _
    · refine .named hname (hdef c n hd ?_)
      rintro rfl rfl
      exact hn true ⟨special, nullable, info, .here, hs⟩
    · obtain ⟨x, hx, he⟩ := List.any_eq_true.1 hs
      obtain rfl : x.value = n := eq_of_beq he
      exact .special hx

/-- **A value that has no problems has none in another script either**, if that script still defines
all that the value refers to. -/
theorem problems_carry (hS : S.SelfContained)
    (hdef : ∀ c n, d.defines c n = true → (c = collection → n ≠ name) → d'.defines c n = true) :
    S.Descent
      (fun present spec v => spec.Every (fun t => ∀ kind, t ≠ .instanceId kind) (fun _ => True) →
        (∀ b, ¬ S.RefersTo b spec v collection name) →
        ∀ lead, S.problemsWhile d present lead spec v = .ok [] →
          S.problemsWhile d' present lead spec v = .ok [])
      (fun present fields v =>
        Spec.EveryField (fun t => ∀ kind, t ≠ .instanceId kind) (fun _ => True) fields →
        ∀ info, (∀ b, ¬ S.RefersTo b (.object fields info) v collection name) →
        ∀ lead, S.fieldProblemsWhile d present lead fields v = .ok [] →
          S.fieldProblemsWhile d' present lead fields v = .ok []) where
  terminal present t info v hids hn lead hx := by
    rw [problemsWhile_terminal, terminalProblems_eq_nil_iff] at hx ⊢
    exact fits_carry hdef hids hn hx
  list present items info v ih hids hn lead hx := by
    obtain ⟨vs, hv, hp⟩ := (S.problemsWhile_list_eq_nil_iff d present lead).1 hx
    obtain rfl := array_of_array? hv
    refine (S.problemsWhile_list_eq_nil_iff d' present lead).2 ⟨vs, hv, fun m hm => ?_⟩
    have hw := List.fst_mem_of_mem_zipIdx hm
    exact ih vs hv m.1 hw hids (fun b hr => hn _ ((Below.item hw).refersTo hr)) _ (hp m hm)
  dictionary present keys values info v ih hids hn lead hx := by
    obtain ⟨es, hv, hp⟩ := (S.problemsWhile_dictionary_eq_nil_iff d present lead).1 hx
    obtain rfl := object_of_object? hv
    refine (S.problemsWhile_dictionary_eq_nil_iff d' present lead).2 ⟨es, hv, fun e he => ?_⟩
    have hk := (ih es hv e he).1 hids.1 (fun b hr => hn _ ((Below.key he).refersTo hr))
    have hw := (ih es hv e he).2 hids.2 (fun b hr => hn _ ((Below.value he).refersTo hr))
    exact ⟨hk _ (hp e he).1, hw _ (hp e he).2⟩
  object present fields info v ih hids hn lead hx := by
    rw [problemsWhile_object] at hx ⊢
    exact ih hids info hn _ hx
  component present kind info v ih hids hn lead hx := by
    obtain ⟨c, variant, chosen, hc, hv, hx, hk, hp, hh⟩ :=
      (S.problemsWhile_component_eq_nil_iff d present lead).1 hx
    have hd : S.Describes chosen := .variant hc hx
    have hf := ih c hc hk chosen.fields (hS.ids chosen hd) .plain
      (fun b hr => hn _ ((Below.variant hc hv hx).refersTo hr)) _ hp
    refine (S.problemsWhile_component_eq_nil_iff d' present lead).2
      ⟨c, variant, chosen, hc, hv, hx, hk, hf, ?_⟩
    rw [hS.hook chosen hd]
    rfl
  fields present fields v lone parts hids info hn lead hx := by
    rcases hl : fields.lone? with _ | spec
    · obtain ⟨es, hv, he, hu⟩ := (S.fieldProblemsWhile_object_eq_nil_iff d present lead hl).1 hx
      obtain rfl := object_of_object? hv
      refine (S.fieldProblemsWhile_object_eq_nil_iff d' present lead hl).2
        ⟨es, hv, fun f hf => ?_, hu⟩
      have hx := he f hf
      rcases hw : es.lookup f.1 with _ | w
      · rw [hw] at hx
        exact hx
      · rw [hw] at hx
        exact parts es hv f hf w hw (Spec.everyField_iff.1 hids f hf)
          (fun b hr => hn _ ((Below.field hl hf hw).refersTo hr)) _ hx
    · rw [fieldProblemsWhile_lone S d present hl] at hx
      rw [fieldProblemsWhile_lone S d' present hl]
      exact lone spec hl (hids.lone hl) (fun b hr => hn _ ((Below.lone hl).refersTo hr)) _ hx

end Schema

end ScriptSchema
