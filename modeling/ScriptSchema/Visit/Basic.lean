import ScriptSchema.Schema.Fault
import ScriptSchema.Schema.Spec
import ScriptSchema.Script

/-!
# Visits

A walk through a value visits the parts that its focus takes: terminal values, keys of
dictionaries, and instances of components.

* `Focus`, `Focus.takes`, `Focus.takesComponent`;
* `Visit`: a part of a value, where it lies and which spec it has;
* `Place`, `Finding`: a resource of a script, and a part of it;
* `Trace`: what a walk saw up to the error that ended it;
* `append_assoc`, `map_append`, `each_append`: traces one after the other.
-/

namespace ScriptSchema

/-- Which parts of a value a walk visits. -/
inductive Focus where
  /-- All that can be visited. -/
  | any
  /-- All terminal values. -/
  | terminal
  /-- Scalars of one format. -/
  | scalar (format : Scalar)
  | enum
  | reference
  | instanceId
  /-- Instances of one component kind. -/
  | component (kind : String)
deriving DecidableEq

namespace Focus

/-- The focus takes values of this terminal spec. -/
def takes : Focus → Terminal → Bool
  | any, _ => true
  | terminal, _ => true
  | scalar s, .scalar t => s == t
  | enum, .enum _ => true
  | reference, .reference _ _ _ => true
  | instanceId, .instanceId _ => true
  | _, _ => false

/-- The focus takes instances of this component kind. -/
def takesComponent : Focus → String → Bool
  | any, _ => true
  | component k, kind => k == kind
  | _, _ => false

end Focus

/-- A part of a value. -/
structure Visit where
  path : String
  spec : Spec
  /-- The part is a key of a dictionary, and not the value under it. -/
  onKey : Bool
  value : Value

/-- Where a resource stands in a script. -/
structure Place where
  collection : String
  /-- The position in the collection. -/
  index : Nat
deriving DecidableEq

/-- The resource at a place. -/
def Script.resourceAt? (d : Script) (place : Place) : Option Value :=
  (d.collection place.collection)[place.index]?

/-- A part of a script. -/
structure Finding where
  /-- The resource that the part belongs to. -/
  place : Place
  /-- The name of that resource, if it has one. -/
  owner : Option String
  visit : Visit

/-! ## Traces -/

/-- What a walk saw, in order, and the error that ended it, if one did. -/
structure Trace (α : Type u) where
  seen : List α
  error : Option SchemaFault

namespace Trace

variable {α : Type u} {β : Type v}

/-- Nothing to see. -/
def nil : Trace α := ⟨[], none⟩

/-- These are seen. -/
def ofList (as : List α) : Trace α := ⟨as, none⟩

/-- An error at once. -/
def fail (e : SchemaFault) : Trace α := ⟨[], some e⟩

/-- One walk and then another; an error in the first ends both. -/
instance : Append (Trace α) where
  append t u :=
    match t.error with
    | none => ⟨t.seen ++ u.seen, u.error⟩
    | some e => ⟨t.seen, some e⟩

/-- The same walk with something else said about each part. -/
def map (f : α → β) (t : Trace α) : Trace β := ⟨t.seen.map f, t.error⟩

/-- The walks for all members of a list, one after the other. -/
def each (f : β → Trace α) : List β → Trace α
  | [] => nil
  | b :: bs => f b ++ each f bs

/-- What was seen, if no error ended the walk. -/
def result (t : Trace α) : Except SchemaFault (List α) :=
  match t.error with
  | none => .ok t.seen
  | some e => .error e

theorem append_of_none {t : Trace α} (h : t.error = none) (u : Trace α) :
    t ++ u = ⟨t.seen ++ u.seen, u.error⟩ := by
  obtain ⟨seen, error⟩ := t
  subst h
  rfl

theorem append_of_some {t : Trace α} {e : SchemaFault} (h : t.error = some e) (u : Trace α) :
    t ++ u = t := by
  obtain ⟨seen, error⟩ := t
  subst h
  rfl

theorem nil_append (t : Trace α) : nil ++ t = t := append_of_none rfl t

theorem append_nil (t : Trace α) : t ++ nil = t := by
  cases h : t.error with
  | none =>
    obtain ⟨seen, error⟩ := t
    subst h
    rw [append_of_none rfl]
    simp [nil]
  | some e => exact append_of_some h nil

theorem append_assoc (t u w : Trace α) : t ++ u ++ w = t ++ (u ++ w) := by
  cases ht : t.error with
  | some e => rw [append_of_some ht u, append_of_some ht w, append_of_some ht (u ++ w)]
  | none =>
    rw [append_of_none ht u, append_of_none ht (u ++ w)]
    cases hu : u.error with
    | some e => rw [append_of_some hu w, append_of_some rfl w, hu]
    | none => rw [append_of_none hu w, append_of_none rfl w, List.append_assoc]

theorem map_append (f : α → β) (t u : Trace α) : (t ++ u).map f = t.map f ++ u.map f := by
  cases ht : t.error with
  | some e => rw [append_of_some ht u, append_of_some (t := t.map f) ht]
  | none =>
    rw [append_of_none ht u, append_of_none (t := t.map f) ht]
    simp [map]

theorem each_append (f : β → Trace α) (bs cs : List β) :
    each f (bs ++ cs) = each f bs ++ each f cs := by
  induction bs with
  | nil => exact (nil_append _).symm
  | cons b bs ih => rw [List.cons_append, each, each, ih, append_assoc]

end Trace

end ScriptSchema
