import ScriptSchema.Schema.Fault
import ScriptSchema.Schema.Spec
import ScriptSchema.Script

/-!
# Classes and components

A class describes an object by its fields and perhaps a check across them. A component is a union of
classes: its tagging says which variant describes a value, and beside its own fields every variant
has those that all of them share.

* `Class`, `Hook`;
* `Tagging`, `Choice`, `Tagging.choose`: how a value chooses its variant;
* `Component`, `Component.build`;
* `Component.variant?`, `Component.untagged`, `Component.classAt`: the classes of a component;
* `isSome_variant?_iff`, `variant?_eq_some`: which names have a class, and what it is;
* **`build_eq_ok_iff`**: which parts make a component.
-/

namespace ScriptSchema

/-- A check of a value beyond its fields; gives messages. -/
abbrev Hook := Script → Value → List String

/-- The description of a resource, or of a variant of a component. -/
structure Class where
  fields : Fields
  hook : Option Hook

/-! ## How a value chooses its variant -/

/-- How a value says which variant of a component it is. -/
inductive Tagging where
  /-- By the string under a key. -/
  | byKey (key : String)
  /-- By a rule for the whole value; the key serves messages only. -/
  | byRule (key : String) (rule : Value → Option String)

/-- What a value says about its variant. -/
inductive Choice where
  | missing
  | notString
  | variant (name : String)
deriving DecidableEq

namespace Tagging

/-- The key. -/
def key : Tagging → String
  | byKey key => key
  | byRule key _ => key

/-- What a value says about its variant. Under a key, `null` and the empty string say nothing; a
rule is not asked about `null`. -/
def choose (t : Tagging) (v : Value) : Choice :=
  match t with
  | byKey key =>
    match v.entry? key with
    | none => .missing
    | some .null => .missing
    | some (.string name) => if name = "" then .missing else .variant name
    | some _ => .notString
  | byRule _ rule =>
    match v with
    | .null => .missing
    | v =>
      match rule v with
      | none => .missing
      | some name => .variant name

end Tagging

/-! ## Components -/

/-- A union of variants. -/
structure Component where
  kind : String
  tagging : Tagging
  shared : Fields
  /-- The variants with their own fields. -/
  variants : Entries Class
  key_ne : tagging.key ≠ ""
  variants_ne : variants ≠ []
  distinct : variants.Distinct

namespace Component

/-- The first of some names that has been seen before. -/
def repeated? (seen : List String) : List String → Option String
  | [] => none
  | x :: xs => if x ∈ seen then some x else repeated? (x :: seen) xs

theorem repeated?_eq_none_iff {xs : List String} : ∀ {seen : List String},
    repeated? seen xs = none ↔ xs.Nodup ∧ ∀ x ∈ xs, x ∉ seen := by
  induction xs with
  | nil => intro seen; simp [repeated?]
  | cons x xs ih =>
    intro seen
    unfold repeated?
    split
    · rename_i hx
      exact ⟨fun h => by contradiction, fun h => absurd hx (h.2 x List.mem_cons_self)⟩
    · rename_i hx
      rw [ih, List.nodup_cons]
      constructor
      · rintro ⟨hn, hm⟩
        refine ⟨⟨fun h => hm x h List.mem_cons_self, hn⟩, fun y hy => ?_⟩
        rcases List.mem_cons.1 hy with rfl | hy
        · exact hx
        · exact fun h => hm y hy (List.mem_cons_of_mem _ h)
      · rintro ⟨⟨hxs, hn⟩, hm⟩
        refine ⟨hn, fun y hy h => ?_⟩
        rcases List.mem_cons.1 h with rfl | h
        · exact hxs hy
        · exact hm y (List.mem_cons_of_mem _ hy) h

/-- A component with the given parts, if they make one. -/
def build (kind : String) (tagging : Tagging) (shared : Fields) (variants : Entries Class) :
    Except SchemaFault Component :=
  if hk : tagging.key = "" then .error (.invalidComponent kind .emptyKey)
  else if hv : variants = [] then .error (.invalidComponent kind .noVariants)
  else
    match hr : repeated? [] variants.keys with
    | some name => .error (.invalidComponent kind (.repeatedVariant name))
    | none => .ok ⟨kind, tagging, shared, variants, hk, hv, (repeated?_eq_none_iff.1 hr).1⟩

/-- **Parts make a component if there is a key and there are variants, each declared once.** -/
theorem build_eq_ok_iff (kind : String) (tagging : Tagging) (shared : Fields)
    (variants : Entries Class) :
    (∃ c, build kind tagging shared variants = .ok c) ↔
      tagging.key ≠ "" ∧ variants ≠ [] ∧ variants.Distinct := by
  unfold build
  split
  · rename_i h; exact ⟨fun ⟨_, h⟩ => by contradiction, fun h' => absurd h h'.1⟩
  · rename_i hk
    split
    · rename_i h; exact ⟨fun ⟨_, h⟩ => by contradiction, fun h' => absurd h h'.2.1⟩
    · rename_i hv
      split
      · rename_i hr
        refine ⟨fun ⟨_, h⟩ => by contradiction, fun h' => ?_⟩
        rw [repeated?_eq_none_iff.2 ⟨h'.2.2, by simp⟩] at hr
        contradiction
      · rename_i hr
        exact ⟨fun _ => ⟨hk, hv, (repeated?_eq_none_iff.1 hr).1⟩, fun _ => ⟨_, rfl⟩⟩

variable (c : Component)

/-- The field that holds the tag, the name of a variant, under the key. A tag that a rule gives is
held by no field. -/
def tagFields : Fields :=
  match c.tagging with
  | .byKey key =>
    [(key, (Spec.ofOptions c.variants.keys).require.explained ("Type of " ++ c.kind ++ "."))]
  | .byRule _ _ => []

/-- The class of a value that has not chosen a known variant: it can have the tag and nothing
else. -/
def untagged : Class := ⟨c.tagFields, none⟩

/-- The class of a variant: the tag's field, under the shared fields, under its own. -/
def variant? (name : String) : Option Class :=
  (c.variants.lookup name).map fun v =>
    { v with fields := (c.tagFields.overlay c.shared).overlay v.fields }

theorem variant?_eq_some {c : Component} {name : String} {own : Class}
    (h : c.variants.lookup name = some own) :
    c.variant? name = some ⟨(c.tagFields.overlay c.shared).overlay own.fields, own.hook⟩ := by
  rw [variant?, h]
  rfl

theorem isSome_variant?_iff (name : String) :
    (c.variant? name).isSome = true ↔ name ∈ c.variants.keys := by
  rw [variant?, Option.isSome_map]
  exact Entries.has_iff c.variants name

/-- The class of a variant, if it is one. -/
def classNamed (variant : Option String) : Class := (variant.bind c.variant?).getD c.untagged

/-- What a value says about its variant. -/
def choose (v : Value) : Choice := c.tagging.choose v

/-- The class that describes the fields of a value. -/
def classAt (v : Value) : Class :=
  match c.choose v with
  | .variant name => c.classNamed name
  | _ => c.untagged

end Component

end ScriptSchema
