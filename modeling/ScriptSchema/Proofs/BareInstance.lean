import ScriptSchema.Proofs.Conforms
import ScriptSchema.Proofs.Distinct
import ScriptSchema.Proofs.Flattening

/-!
# Instances with a tag and nothing else

If a component keeps its tag under a key and asks for no other field, an object with that tag alone
is an instance. There is one exception: a variant whose only field is that of the tag, under the key
`self`. By such a field the value itself is described, so that the object would have to be the name
of a variant.

* `Schema.bare`, `Schema.layers`: an object with nothing but a tag, and the fields of its variant;
* `mem_layers`, `mem_keys_layers`, `lone?_layers_iff`: which fields these are;
* `fieldProblems_bare_iff`: what they find;
* `problems_bare_eq_nil_iff`: validation compares a bare instance with them;
* **`problems_bare_iff`**: when it is accepted;
* `not_problems_bare`: it is not always so.
-/

namespace ScriptSchema

namespace Schema

/-- An object with nothing but the name of a variant under the key. -/
def bare (key variant : String) : Value := .object [(key, .string variant)]

/-- The fields of a variant under a key: that of the tag, under the shared ones, under its own. -/
def layers (kind key : String) (names : List String) (shared own : Fields) : Fields :=
  (Entries.overlay [(key, Tagging.tagSpec kind names)] shared).overlay own

section Bare

variable {kind key variant : String} {shared own : Fields} {names : List String}

theorem choose_bare (hne : variant ≠ "") :
    (Tagging.byKey key).choose (bare key variant) = .variant variant := by
  have he : Value.entry? (bare key variant) key = some (.string variant) :=
    List.lookup_cons_self
  rw [Tagging.choose, he]
  simp [hne]

/-! ## The fields of the variant -/

theorem mem_keys_layers {name : String} : name ∈ (layers kind key names shared own).keys ↔
    name = key ∨ name ∈ Entries.keys shared ∨ name ∈ Entries.keys own := by
  rw [layers, Entries.mem_keys_overlay, Entries.mem_keys_overlay, or_assoc]
  exact or_congr_left List.mem_singleton

variable (hs : key ∉ Entries.keys shared) (ho : key ∉ Entries.keys own)
include hs ho

/-- The field of the tag is the only one that a bare instance has, and the only required one. -/
theorem mem_layers (hreq : ∀ f ∈ shared ++ own, f.2.required = false) {f : String × Spec}
    (hf : f ∈ layers kind key names shared own) :
    f = (key, Tagging.tagSpec kind names) ∨ f.1 ≠ key ∧ f.2.required = false := by
  have hother {fields : Fields} (hk : key ∉ fields.keys) (hm : f ∈ fields) : f.1 ≠ key :=
    fun he => hk (he ▸ List.mem_map_of_mem hm)
  rcases Entries.mem_overlay hf with hf | hf
  · rcases Entries.mem_overlay hf with hf | hf
    · exact .inl (List.mem_singleton.1 hf)
    · exact .inr ⟨hother hs hf, hreq f (List.mem_append_left _ hf)⟩
  · exact .inr ⟨hother ho hf, hreq f (List.mem_append_right _ hf)⟩

/-- The field of the tag describes the value itself if it is the only one and is named `self`. -/
theorem lone?_layers_iff : (∃ spec, (layers kind key names shared own).lone? = some spec) ↔
    key = "self" ∧ shared = [] ∧ own = [] := by
  constructor
  · rintro ⟨spec, hl⟩
    have hself {name : String} (h : name ∈ (layers kind key names shared own).keys) :
        name = "self" := by
      rw [Fields.lone?_eq_some_iff.1 hl] at h
      exact List.mem_singleton.1 h
    have hkey : key = "self" := hself (mem_keys_layers.2 (.inl rfl))
    -- a field in another layer would have the name of the tag's field
    have hnil {fields : Fields} (hk : key ∉ fields.keys)
        (hall : ∀ name ∈ fields.keys, name = "self") : fields = [] := by
      rcases fields with _ | ⟨f, fields⟩
      · rfl
      · have hf : f.1 ∈ Entries.keys (f :: fields) := List.mem_cons_self
        exact absurd (hkey.trans (hall _ hf).symm ▸ hf) hk
    exact ⟨hkey, hnil hs fun _ hn => hself (mem_keys_layers.2 (.inr (.inl hn))),
      hnil ho fun _ hn => hself (mem_keys_layers.2 (.inr (.inr hn)))⟩
  · rintro ⟨rfl, rfl, rfl⟩
    exact ⟨_, rfl⟩

/-! ## Validation -/

variable {S : Schema} {d : Script} {present : List String}

/-- Fields that do not describe the value itself have no problems: the tag is the name of a variant,
the others may be absent, and there is nothing more in the object. -/
theorem fieldProblems_bare (hn : variant ∈ names)
    (hreq : ∀ f ∈ shared ++ own, f.2.required = false)
    (hl : (layers kind key names shared own).lone? = none) (lead : String) :
    S.fieldProblemsWhile d present lead (layers kind key names shared own) (bare key variant) =
      .ok [] := by
  refine (fieldProblemsWhile_object_eq_nil_iff S d present lead hl).2 ⟨_, rfl, fun f hf => ?_, ?_⟩
  · rcases mem_layers hs ho hreq hf with rfl | ⟨hne, hf⟩
    · rw [List.lookup_cons_self]
      exact (problemsWhile_terminal S d [] _ _ _ _).trans (terminalProblems_eq_nil_iff.2 (.enum hn))
    · rw [List.lookup_cons, beq_eq_false_iff_ne.2 hne]
      simp [entryProblems, hf]
  · refine unexpectedProblems_eq_nil_iff.2 fun name hm => ?_
    obtain rfl := List.mem_singleton.1 hm
    exact (Entries.has_iff _ _).2 (mem_keys_layers.2 (.inl rfl))

/-- A lone `self` has problems: the object would have to be the name of a variant. -/
theorem fieldProblems_bare_of_lone {spec : Spec}
    (hl : (layers kind key names shared own).lone? = some spec) (lead : String) :
    S.fieldProblemsWhile d present lead (layers kind key names shared own) (bare key variant) ≠
      .ok [] := by
  obtain ⟨rfl, rfl, rfl⟩ := (lone?_layers_iff hs ho).1 ⟨spec, hl⟩
  obtain rfl : Tagging.tagSpec kind names = spec := Option.some.inj hl
  rw [fieldProblemsWhile_lone S d present hl, Tagging.tagSpec, problemsWhile_terminal, Ne,
    terminalProblems_eq_nil_iff]
  intro h
  cases h

theorem fieldProblems_bare_iff (hn : variant ∈ names)
    (hreq : ∀ f ∈ shared ++ own, f.2.required = false) (lead : String) :
    S.fieldProblemsWhile d present lead (layers kind key names shared own) (bare key variant) =
      .ok [] ↔ ¬ (key = "self" ∧ shared = [] ∧ own = []) := by
  have hlone : (∃ spec, (layers kind key names shared own).lone? = some spec) ↔ _ :=
    lone?_layers_iff hs ho
  rw [← hlone]
  rcases hl : (layers kind key names shared own).lone? with _ | spec
  · refine iff_of_true (fieldProblems_bare hs ho hn hreq hl lead) ?_
    rintro ⟨spec, h⟩
    cases h
  · exact iff_of_false (fieldProblems_bare_of_lone hs ho hl lead) (not_not_intro ⟨spec, rfl⟩)

end Bare

/-! ## Instances of a component -/

section Component

variable {S : Schema} {kind key variant : String} {shared : Fields} {variants : Entries Class}
  {c : Component} {own : Class}

/-- By its tag a bare instance is compared with the fields of the variant, and with nothing else. -/
theorem problems_bare_eq_nil_iff (hb : Component.build kind (.byKey key) shared variants = .ok c)
    (hc : S.components.find? kind = some c) (hv : (variant, own) ∈ variants) (hne : variant ≠ "")
    (hook : own.hook = none) (d : Script) (name : String) (info : Info) :
    S.problems d name (.component kind info) (bare key variant) = .ok [] ↔
      S.fieldProblemsWhile d [kind] (name ++ ".") (layers kind key variants.keys shared own.fields)
        (bare key variant) = .ok [] := by
  obtain ⟨rfl, htag, rfl, rfl⟩ := Component.parts_of_build hb
  have hchoose : c.choose (bare key variant) = .variant variant := by
    rw [Component.choose, htag]
    exact choose_bare hne
  have hlayers : c.variant? variant =
      some ⟨layers c.kind key c.variants.keys c.shared own.fields, none⟩ := by
    rw [Component.variant?_eq_some (c.distinct.lookup_eq hv), Component.tagFields, htag, hook]
    rfl
  rw [problems, problemsWhile_component_eq, hc]
  dsimp only
  rw [hchoose]
  dsimp only
  rw [hlayers]
  dsimp only
  rw [if_neg List.not_mem_nil, Search.both_eq_nil_iff]
  exact and_iff_left rfl

/-- **An instance with a tag and nothing else is accepted** if the tag is the name of a variant that
has no hook and no required field, but not if the field of the tag is the only one of the variant
and is named `self`. -/
theorem problems_bare_iff (hb : Component.build kind (.byKey key) shared variants = .ok c)
    (hc : S.components.find? kind = some c) (hv : (variant, own) ∈ variants) (hne : variant ≠ "")
    (hook : own.hook = none) (hs : key ∉ Entries.keys shared) (ho : key ∉ Entries.keys own.fields)
    (hreq : ∀ f ∈ shared ++ own.fields, f.2.required = false) (d : Script) (name : String)
    (info : Info) :
    S.problems d name (.component kind info) (bare key variant) = .ok [] ↔
      ¬ (key = "self" ∧ shared = [] ∧ own.fields = []) :=
  (problems_bare_eq_nil_iff hb hc hv hne hook d name info).trans
    (fieldProblems_bare_iff hs ho (List.mem_map_of_mem hv) hreq _)

end Component

def dot : Class := ⟨[], none⟩

def arrow : Class := ⟨[("length", .terminal (.scalar .number) .plain)], none⟩

/-- Marks have their tag under `self`. -/
def mark : Component where
  kind := "mark"
  tagging := .byKey "self"
  shared := []
  variants := [("dot", dot), ("arrow", arrow)]
  key_ne := by decide
  variants_ne := by decide
  distinct := by decide

def marks : Schema := empty.addComponent mark

theorem build_mark : Component.build "mark" (.byKey "self") [] mark.variants = .ok mark := rfl

theorem problems_bare_iff_arrow : ("arrow", arrow) ∈ mark.variants ∧
    "self" ∉ arrow.fields.keys ∧ (∀ f ∈ arrow.fields, f.2.required = false) ∧
    marks.problems .empty "m" (.component "mark" .plain) (bare "self" "arrow") = .ok [] := by
  have hv : ("arrow", arrow) ∈ mark.variants := List.mem_cons_of_mem _ List.mem_cons_self
  have ho : "self" ∉ arrow.fields.keys := by decide
  have hreq : ∀ f ∈ arrow.fields, f.2.required = false := by decide
  refine ⟨hv, ho, hreq, ?_⟩
  refine (problems_bare_iff build_mark rfl hv (by decide) rfl List.not_mem_nil ho hreq _ _ _).2 ?_
  rintro ⟨-, -, h⟩
  cases h

/-- Instances with a tag and nothing else are not always accepted. -/
theorem not_problems_bare : ¬ ∀ (S : Schema) (kind key variant : String) (shared : Fields)
    (variants : Entries Class) (c : Component) (own : Class),
    Component.build kind (.byKey key) shared variants = .ok c → S.components.find? kind = some c →
    (variant, own) ∈ variants → variant ≠ "" → own.hook = none → key ∉ Entries.keys shared →
    key ∉ Entries.keys own.fields → (∀ f ∈ shared ++ own.fields, f.2.required = false) →
    ∀ d name info, S.problems d name (.component kind info) (bare key variant) = .ok [] := by
  intro h
  have hv : ("dot", dot) ∈ mark.variants := List.mem_cons_self
  have hx := h marks "mark" "self" "dot" [] mark.variants mark dot build_mark rfl hv (by decide) rfl
    List.not_mem_nil List.not_mem_nil nofun .empty "m" .plain
  exact fieldProblems_bare_of_lone List.not_mem_nil List.not_mem_nil rfl _
    ((problems_bare_eq_nil_iff build_mark rfl hv (by decide) rfl _ _ _).1 hx)

end Schema

end ScriptSchema
