import ScriptSchema.Proofs.Search
import ScriptSchema.Visit.Edit

/-!
# Spots

The parts of a value lie at the ends of ways through items and entries, each given by its position.
Writing at the end of a way changes that part and nothing else, and so does writing at many, one
after the other.

* `Value.child?`, `Value.setChild`, `Value.at?`, `Value.putAt`: the part at the end of a way;
* `Spot`, `Spot.below`: something that is said about a part, and where the part lies;
* `Spot.write`, `Spot.writes`: answers about parts, written where the parts lie;
* `writes_below`: writing below a part is writing in the part;
* `Trace.applied`: an editing walk that only writes, given what it will see;
* `applied_append`, **`applied_below`**: its parts.
-/

namespace ScriptSchema

/-! ## Ways through a value -/

namespace Value

/-- The item or the entry at a position. -/
def child? : Value → Nat → Option Value
  | array vs, i => vs[i]?
  | object es, i => es[i]?.map Prod.snd
  | _, _ => none

/-- Writes an item or an entry at a position. -/
def setChild : Value → Nat → Value → Value
  | array vs, i, w => array (vs.modify i fun _ => w)
  | object es, i, w => object (es.modify i fun e => (e.1, w))
  | v, _, _ => v

/-- The part at the end of a way. -/
def at? : List Nat → Value → Option Value
  | [], v => some v
  | i :: way, v => (v.child? i).bind (at? way)

/-- Writes the part at the end of a way. -/
def putAt : List Nat → Value → Value → Value
  | [], _, w => w
  | i :: way, v, w =>
    match v.child? i with
    | none => v
    | some u => v.setChild i (putAt way u w)

variable {v u : Value} {i : Nat}

theorem child?_setChild (h : v.child? i = some u) (w : Value) :
    (v.setChild i w).child? i = some w := by
  cases v with
  | array vs =>
    have hi : vs[i]? = some u := h
    rw [setChild, child?, List.getElem?_modify_eq, hi]
    rfl
  | object es =>
    obtain ⟨e, he, -⟩ := Option.map_eq_some_iff.1 h
    rw [setChild, child?, List.getElem?_modify_eq, he]
    rfl
  | _ => nomatch h

theorem setChild_child? (h : v.child? i = some u) : v.setChild i u = v := by
  cases v with
  | array vs =>
    have hi : vs[i]? = some u := h
    refine congrArg array (List.ext_getElem? fun j => ?_)
    rw [List.getElem?_modify]
    by_cases hj : i = j
    · subst hj
      simp only [hi, if_true, Option.map_eq_map, Option.map_some]
    · simp only [hj, if_false, Option.map_eq_map, Option.map_id']
  | object es =>
    obtain ⟨e, he, rfl⟩ := Option.map_eq_some_iff.1 h
    refine congrArg object (List.ext_getElem? fun j => ?_)
    rw [List.getElem?_modify]
    by_cases hj : i = j
    · subst hj
      simp only [he, if_true, Option.map_eq_map, Option.map_some]
    · simp only [hj, if_false, Option.map_eq_map, Option.map_id']
  | _ => nomatch h

theorem setChild_setChild (v : Value) (i : Nat) (w w' : Value) :
    (v.setChild i w).setChild i w' = v.setChild i w' := by
  cases v with
  | array vs => exact congrArg array (List.modify_modify_eq _ _ i vs)
  | object es => exact congrArg object (List.modify_modify_eq _ _ i es)
  | _ => rfl

theorem putAt_cons (h : v.child? i = some u) (way : List Nat) (w : Value) :
    v.putAt (i :: way) w = v.setChild i (u.putAt way w) := by
  rw [putAt, h]

/-- Writing what is there already changes nothing. -/
theorem putAt_at? {way : List Nat} (h : v.at? way = some u) : v.putAt way u = v := by
  induction way generalizing v with
  | nil => exact (Option.some.inj h).symm
  | cons i way ih =>
    obtain ⟨w, hw, h⟩ := Option.bind_eq_some_iff.1 h
    rw [putAt_cons hw, ih h, setChild_child? hw]

end Value

/-! ## Spots -/

/-- Something that is said about a part of a value, and the way to the part. Keys of entries lie at
no spot of their own. -/
structure Spot (α : Type) where
  way? : Option (List Nat)
  part : α

namespace Spot

variable {α β σ ε : Type}

/-- The spot as seen from above: the value is the child at the position. -/
def below (i : Nat) (x : Spot α) : Spot α := { x with way? := x.way?.map (i :: ·) }

/-- The same spot with something else said about it. -/
def map (f : α → β) (x : Spot α) : Spot β := ⟨x.way?, f x.part⟩

variable (reply : α → σ → Reply σ ε)

/-- Asks about the part and writes the answer where the part lies. -/
def write (vs : Value × σ) (x : Spot α) : Value × σ :=
  let r := reply x.part vs.2
  (x.way?.elim vs.1 fun way => vs.1.putAt way r.value, r.state)

/-- Asks about all parts in turn, and writes the answers. -/
def writes (xs : List (Spot α)) (v : Value) (s : σ) : Value × σ := xs.foldl (write reply) (v, s)

variable {reply}

theorem writes_map {reply : β → σ → Reply σ ε} (f : α → β) (xs : List (Spot α)) (v : Value)
    (s : σ) : writes reply (xs.map (map f)) v s = writes (fun a => reply (f a)) xs v s :=
  List.foldl_map

/-- Answers about parts that lie nowhere are not written. -/
theorem writes_nowhere (as : List α) (v : Value) (s : σ) :
    writes reply (as.map (Spot.mk none)) v s = (v, as.foldl (fun s a => (reply a s).state) s) := by
  induction as generalizing s with
  | nil => rfl
  | cons a as ih => exact ih (reply a s).state

/-- **Writing below a child is writing in the child.** -/
theorem writes_below {v u : Value} {i : Nat} (h : v.child? i = some u) (xs : List (Spot α))
    (s : σ) :
    writes reply (xs.map (below i)) v s =
      (v.setChild i (writes reply xs u s).1, (writes reply xs u s).2) := by
  induction xs generalizing v u s with
  | nil => exact congrArg (·, s) (Value.setChild_child? h).symm
  | cons x xs ih =>
    obtain ⟨_ | way, a⟩ := x
    · exact ih h (reply a s).state
    · have hw : v.putAt (i :: way) (reply a s).value =
          v.setChild i (u.putAt way (reply a s).value) := Value.putAt_cons h way _
      have hx := ih (Value.child?_setChild h (u.putAt way (reply a s).value)) (reply a s).state
      rw [Value.setChild_setChild] at hx
      change writes reply (xs.map (below i)) (v.putAt (i :: way) (reply a s).value)
        (reply a s).state = _
      rw [hw, hx]
      rfl

end Spot

/-! ## Walks that only write -/

/-- How an editing walk stops where a walk that changes nothing meets a fault. -/
def Stop.ofFault {ε : Type} : SchemaFault → Stop ε
  | .circular _ => .tooDeep
  | e => .schema e

namespace Trace

variable {α β σ ε : Type}

/-- What answering at the spots that a walk sees leaves of a value. -/
def applied (reply : α → σ → Reply σ ε) (t : Trace (Spot α)) (v : Value) (s : σ) :
    Edit σ ε Value :=
  let r := Spot.writes reply t.seen v s
  ⟨r.1, r.2, t.error.map .ofFault⟩

variable {reply : α → σ → Reply σ ε}

theorem applied_map {reply : β → σ → Reply σ ε} (f : α → β) (t : Trace (Spot α)) (v : Value)
    (s : σ) : (t.map (Spot.map f)).applied reply v s = t.applied (fun a => reply (f a)) v s := by
  rw [applied, applied, map, Spot.writes_map]

/-- One walk and then the other. -/
theorem applied_append (t u : Trace (Spot α)) (v : Value) (s : σ) :
    (t ++ u).applied reply v s = (t.applied reply v s).andThen (u.applied reply) := by
  rcases ht : t.error with _ | e
  · rw [append_of_none ht, Edit.andThen]
    simp only [applied, ht, Option.map_none, Spot.writes, List.foldl_append]
  · rw [append_of_some ht, Edit.andThen]
    simp only [applied, ht, Option.map_some]

/-- **The walk through a child.** -/
theorem applied_below {v u : Value} {i : Nat} (h : v.child? i = some u) (t : Trace (Spot α))
    (s : σ) :
    (t.map (Spot.below i)).applied reply v s = (t.applied reply u s).map (v.setChild i) := by
  rw [applied, map, Spot.writes_below h]
  rfl

end Trace

end ScriptSchema
