import ScriptSchema.Migration.Workspace
import ScriptSchema.Proofs.Addition
import ScriptSchema.Proofs.KeyRenaming

/-!
# Flushing the queue

What transforms queue is added when a step is done, resource by resource, so that every addition
meets what the ones before it have left. All of it together comes to this: a collection grows by the
resources that are queued for it, and new collections follow the old entries. An entry that is not
an array cannot grow, and gives way to one.

* `queuedFor`: the resources that are queued for one collection;
* `Script.pushAll`, `get?_pushAll`, `keys_pushAll`: what there is after all additions, and where;
* `Script.Flushed`, **`flush_flushed`**: the script as a flush leaves it;
* `not_entries_kept`: an entry may be lost.
-/

namespace ScriptSchema

/-- The resources that a queue holds for a collection, in order. -/
def queuedFor (queue : List (String × Value)) (name : String) : List Value :=
  queue.filterMap fun r => if r.1 = name then some r.2 else none

theorem queuedFor_cons (r : String × Value) (queue : List (String × Value)) (name : String) :
    queuedFor (r :: queue) name =
      if r.1 = name then r.2 :: queuedFor queue name else queuedFor queue name := by
  unfold queuedFor
  split
  · rename_i h
    exact List.filterMap_cons_some (if_pos h)
  · rename_i h
    exact List.filterMap_cons_none (if_neg h)

namespace Script

/-! ## Additions one after the other -/

/-- The script with resources added to their collections. -/
def pushAll (d : Script) (queue : List (String × Value)) : Script :=
  queue.foldl (fun d r => d.push r.1 r.2) d

theorem pushAll_cons (d : Script) (r : String × Value) (queue : List (String × Value)) :
    d.pushAll (r :: queue) = (d.push r.1 r.2).pushAll queue := rfl

theorem collection_of_get? {d : Script} {key : String} {vs : List Value}
    (h : d.get? key = some (.array vs)) : d.collection key = vs := by
  rw [collection, array?, h]
  rfl

theorem collection_of_array?_eq_none {d : Script} {key : String} (h : d.array? key = none) :
    d.collection key = [] := by
  rw [collection, h]
  rfl

/-- An entry changes if something is queued for it, and only then. It holds a collection from then
on, with all that is queued at its end. -/
theorem get?_pushAll (d : Script) (queue : List (String × Value)) (key : String) :
    (d.pushAll queue).get? key =
      if queuedFor queue key = [] then d.get? key
      else some (.array (d.collection key ++ queuedFor queue key)) := by
  induction queue generalizing d with
  | nil => exact (if_pos rfl).symm
  | cons r queue ih =>
    rw [pushAll_cons, ih, get?_push, collection_push, queuedFor_cons]
    by_cases hk : key = r.1
    · subst hk
      simp only [if_true, List.cons_ne_nil, if_false, List.append_assoc, List.singleton_append]
      split
      · rename_i hq
        rw [hq]
      · rfl
    · simp only [hk, Ne.symm hk, if_false]

theorem keys_push (d : Script) (name : String) (v : Value) :
    (d.push name v).entries.keys =
      if name ∈ d.entries.keys then d.entries.keys else d.entries.keys ++ [name] :=
  Entries.keys_put d.entries name _

/-- New collections follow the old entries, in the order in which something is queued for them
first. What they hold does not matter to that. -/
theorem keys_pushAll (d : Script) (queue : List (String × Value)) :
    (d.pushAll queue).entries.keys = d.entries.keys ++
      ((queue.map Prod.fst).filter fun name => decide (name ∉ d.entries.keys)).eraseDups := by
  suffices ∀ es : Entries Value, d.entries.keys = es.keys →
      (d.pushAll queue).entries.keys = (es.overlay queue).keys from
    (this d.entries rfl).trans (Entries.keys_overlay d.entries queue)
  induction queue generalizing d with
  | nil => exact fun es h => h
  | cons r queue ih =>
    intro es h
    refine ih (d.push r.1 r.2) (es.put r.1 r.2) ?_
    rw [keys_push, Entries.keys_put, h]

/-! ## The whole flush -/

/-- The script `e` is `d` with the queue flushed. -/
structure Flushed (d : Script) (queue : List (String × Value)) (e : Script) : Prop where
  /-- Every entry stays in its place, and new ones follow in the order of their first resources. -/
  keys : e.entries.keys = d.entries.keys ++
    ((queue.map Prod.fst).filter fun name => decide (name ∉ d.entries.keys)).eraseDups
  /-- A collection is followed by what is queued for it. -/
  extended : ∀ name vs, d.get? name = some (.array vs) →
    e.get? name = some (.array (vs ++ queuedFor queue name))
  /-- An entry for which nothing is queued keeps its value, whatever it is. -/
  kept : ∀ name, queuedFor queue name = [] → e.get? name = d.get? name
  /-- Without a collection, what is queued for it becomes one. -/
  created : ∀ name, d.array? name = none → queuedFor queue name ≠ [] →
    e.get? name = some (.array (queuedFor queue name))

theorem pushAll_flushed (d : Script) (queue : List (String × Value)) :
    d.Flushed queue (d.pushAll queue) where
  keys := d.keys_pushAll queue
  extended name vs h := by
    rw [get?_pushAll, collection_of_get? h, h]
    split
    · rename_i hq
      rw [hq, List.append_nil]
    · rfl
  kept name hq := by rw [get?_pushAll, if_pos hq]
  created name ha hq := by
    rw [get?_pushAll, if_neg hq, collection_of_array?_eq_none ha, List.nil_append]

end Script

namespace Workspace

theorem flush_eq_pushAll (w : Workspace) (d : Script) : w.flush d = d.pushAll w.queue := rfl

/-- **What flushing a queue leaves of a script**, whatever is queued and whatever the entries
hold. -/
theorem flush_flushed (w : Workspace) (d : Script) : d.Flushed w.queue (w.flush d) := by
  rw [flush_eq_pushAll]
  exact d.pushAll_flushed w.queue

/-- A note that is no collection. -/
def motto : Script := ⟨[("notes", .string "stay calm")]⟩

/-- A note is queued. -/
def oneQueued : Workspace := ⟨none, none, [], [("notes", .object [("name", .string "first")])]⟩

/-- The motto is lost once a note is queued. -/
theorem not_entries_kept : ¬ ∀ (w : Workspace) (d : Script) name v, d.get? name = some v →
    v.array? = none → (w.flush d).get? name = some v := by
  intro h
  have hx := h oneQueued motto "notes" (.string "stay calm") rfl rfl
  have hs := congrArg (Option.any Value.isString) hx
  exact absurd hs (by decide)

end Workspace

end ScriptSchema
