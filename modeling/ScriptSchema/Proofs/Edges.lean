import ScriptSchema.Proofs.Completion
import ScriptSchema.Proofs.Renaming

/-!
# The reference graph of a renamed resource

What holds of the references in every value holds of those in a script. After a walk that gives a
resource another name, the references of the script are what they were, edge by edge and in the same
order, with the new name for the old one.

* `Reference.edge`, `Schema.edges`: the reference graph;
* `Schema.KeysApartIn`, `keysApartIn_of_everyObject`: no key has to be lost;
* `entry_ends`: the editing walk through an entry of a script;
* **`edges_renamed`**: the editing walk through a script.
-/

namespace ScriptSchema

/-- Which resource refers, and what it names. -/
def Reference.edge (x : Reference) : Place × String × String := (x.origin, x.collection, x.name)

/-- The same, with the new name for the old one. -/
def Renaming.edge (r : Renaming) : Place × String × String → Place × String × String :=
  fun (place, target) => (place, r.named target)

/-- The edge that a visited reference is, if it names a resource. -/
def Finding.edge? (f : Finding) : Option (Place × String × String) :=
  f.visit.named?.map (f.place, ·)

theorem Finding.map_edge_reference? (f : Finding) : f.reference?.map Reference.edge = f.edge? := by
  unfold Finding.reference? Finding.edge?
  rcases f.visit.named? with _ | target <;> rfl

namespace Schema

variable {S : Schema}

variable (S) in
/-- The reference graph, edge by edge in the order of the walk. -/
def edges (d : Script) : Except SchemaFault (List (Place × String × String)) :=
  (S.references d).map (List.map Reference.edge)

variable (S) in
/-- In no resource that a walk through a script goes through a key has to be lost. -/
def KeysApartIn (r : Renaming) (d : Script) : Prop :=
  ∀ entry ∈ d.entries, ∀ c vs, S.Collects entry c vs →
    ∀ v ∈ vs, S.KeysApart r (.object c.fields .plain) v

/-- Nothing is in the way if no object of the script has both names among its keys. -/
theorem keysApartIn_of_everyObject {r : Renaming} {d : Script}
    (h : d.value.EveryObject fun keys => ¬ (r.old ∈ keys ∧ r.new ∈ keys)) : S.KeysApartIn r d := by
  intro entry he c vs hc v hv special nullable info values info' es hr
  have hentry := Value.everyEntry_iff.1 h.2 entry he
  rw [hc.array] at hentry
  have hobjects := Value.everyItem_iff.1 hentry v hv
  exact (hobjects.reaches hr).1

variable (S) in
/-- What the references in an entry of a script name. -/
def entryEdges (entry : String × Value) : Trace (Option (Place × String × String)) :=
  (S.entryFindings .reference entry).map Finding.edge?

theorem edges_eq {d : Script} (h : (S.findings .reference d).error = none) :
    S.edges d = .ok ((Trace.each S.entryEdges d.entries).seen.filterMap id) := by
  rw [edges, references_eq h]
  refine congrArg Except.ok ?_
  have hseen : (Trace.each S.entryEdges d.entries).seen =
      (S.findings .reference d).seen.map Finding.edge? :=
    congrArg Trace.seen (Trace.map_each _ _ _).symm
  rw [hseen, List.filterMap_map, List.map_filterMap]
  exact List.filterMap_congr fun f _ => f.map_edge_reference?

theorem map_memberFindings (name : String) (fields : Fields) (m : Value × Nat) :
    (S.memberFindings .reference name fields m).map Finding.edge? =
      (S.named "" (.object fields .plain) m.1).map (Option.map (⟨name, m.2⟩, ·)) := by
  rw [memberFindings, Trace.map_map, named, Trace.map_map, visits, visitsWhile_object]
  rfl

theorem entryEdges_of_collects {entry : String × Value} {c : Class} {vs : List Value}
    (h : S.Collects entry c vs) :
    S.entryEdges entry =
      .each (fun m => (S.named "" (.object c.fields .plain) m.1).map
        (Option.map (⟨entry.1, m.2⟩, ·))) vs.zipIdx := by
  rw [entryEdges, entryFindings_of_collects h, Trace.map_each]
  exact Trace.each_congr fun m _ => map_memberFindings entry.1 c.fields m

/-- The references in a collection follow if those in its resources do. -/
theorem entryEdges_of_renames {r : Renaming} {entry : String × Value} {c : Class}
    {vs ws : List Value} (h : S.Collects entry c vs)
    (hws : List.Forall₂ (r.Renames S (.object c.fields .plain)) vs ws) :
    S.entryEdges (entry.1, .array ws) = (S.entryEdges entry).map (Option.map r.edge) := by
  have h' : S.Collects (entry.1, .array ws) c ws := ⟨h.ne, h.resource, rfl⟩
  rw [entryEdges_of_collects h, entryEdges_of_collects h', Trace.map_each]
  refine Trace.each_of_forall₂ ((forall₂_zipIdx hws 0).imp fun m m' hm => ?_)
  rw [hm.1.named "" "", hm.2, Trace.map_map, Trace.map_map]
  refine congrArg (Trace.map · _) (funext fun o => ?_)
  rcases o with _ | target <;> rfl

/-- The references in an entry of a script follow. -/
theorem entry_ends (hS : S.Sound) (hD : S.Distinct) (hK : S.Keyed) {r : Renaming} (hr : r.Fresh S)
    {entry : String × Value} (ho : entry.2.EveryObject List.Nodup)
    (ha : ∀ c vs, S.Collects entry c vs → ∀ v ∈ vs, S.KeysApart r (.object c.fields .plain) v)
    (s : Unit) :
    Edit.Ends (fun entry' => S.entryEdges entry' = (S.entryEdges entry).map (Option.map r.edge))
      (fun _ => True) fun depth => S.editEntry .reference r.editor depth entry s := by
  by_cases hc : ∃ c vs, S.Collects entry c vs
  · obtain ⟨c, vs, hc⟩ := hc
    have hd : S.Describes c := hc.describes
    rw [hc.array] at ho
    have hsuits (v : Value) (hv : v ∈ vs) : r.Suits S (.object c.fields .plain) v :=
      { checked := hS.everyField c hd
        distinct := hD c hd
        loneFree := hK.loneFree c hd
        spares := hr.spares c hd
        objects := Value.everyItem_iff.1 ho v hv
        apart := ha c vs hc v hv }
    have hone (index : Nat) (v : Value) (hv : v ∈ vs) (s : Unit) (hs : True) :=
      Edit.Ends.deeper_iff.2 (r.renames_end hS hD hK hr ⟨entry.1, index⟩ (nameOf? v) (hsuits v hv)
        "" s hs)
    simp only [editEntry_of_collects hc]
    exact (Edit.Ends.members hone 0 (s := s) trivial).map fun ws hws =>
      entryEdges_of_renames hc hws
  · simp only [not_exists] at hc
    simp only [editEntry_of_not_collects hc]
    refine .keep ?_ trivial
    rw [entryEdges, entryFindings_of_not_collects hc]
    rfl

/-- **After the walk the references name what they named before, with the new name for the old
one**, one by one and in the same order; none is left that names the old one. -/
theorem edges_renamed (S : Schema) (h : S.check = .ok ()) (hD : S.Distinct) (hK : S.Keyed)
    {r : Renaming} (hr : r.Fresh S) {d : Script} (hd : d.value.EveryObject List.Nodup)
    (ha : S.KeysApartIn r d) :
    ∃ n e edges, (∀ depth, n ≤ depth → S.editScript .reference r.editor depth d () = .keep e ()) ∧
      S.edges d = .ok edges ∧ S.edges e = .ok (edges.map r.edge) ∧
      ∀ x ∈ edges.map r.edge, x.2 ≠ (r.collection, r.old) := by
  have hS : S.Sound := S.sound_of_check h
  have hentry (index : Nat) (entry : String × Value) (he : entry ∈ d.entries) (s : Unit)
      (_ : True) := entry_ends hS hD hK hr (Value.everyEntry_iff.1 hd.2 entry he) (ha entry he) s
  obtain ⟨n, es, _, hes, -, hwalk⟩ := Edit.Ends.members (s := ()) hentry 0 trivial
  have herror (d : Script) : (S.findings .reference d).error = none :=
    (error_findings_iff_returns hS .reference).2 (resourcesReturn_of_grounded hK.grounded .walk)
  have hseen : Trace.each S.entryEdges es =
      (Trace.each S.entryEdges d.entries).map (Option.map r.edge) :=
    (Trace.each_of_forall₂ hes).trans (Trace.map_each _ _ _).symm
  refine ⟨n, ⟨es⟩, _, fun depth hn => ?_, edges_eq (herror d), ?_, fun x hx => ?_⟩
  · exact congrArg (Edit.map Script.mk) (hwalk depth hn)
  · rw [edges_eq (herror ⟨es⟩), hseen, Trace.map, List.filterMap_map, List.map_filterMap]
    rfl
  · obtain ⟨⟨place, target⟩, -, rfl⟩ := List.mem_map.1 hx
    exact Renaming.named_ne hr.ne target

/-! ## A play -/

/-- An actor enters, alone or with others, or says something to somebody. -/
def turn : Component where
  kind := "turn"
  tagging := .byKey "does"
  shared := []
  variants := [("enter", ⟨[("who", .list (.terminal (.reference "roles" [] false) .plain) .plain)],
      none⟩),
    ("say", ⟨[("from", .terminal (.reference "roles" [] false) .plain),
      ("upon", .terminal (.reference "roles" [⟨"all", none⟩] true) .plain)], none⟩)]
  key_ne := by decide
  variants_ne := by decide
  distinct := by decide

/-- Scenes have turns, and say for some roles who else can play them. -/
def plays : Schema :=
  ((empty.addResource "role" ⟨[("name", .terminal (.scalar .name) ⟨true, none⟩)], none⟩).addResource
    "scene" ⟨[("doubles", .dictionary (.terminal (.reference "roles" [] false) .plain)
        (.terminal (.reference "roles" [] false) .plain) .plain),
      ("turns", .list (.component "turn" .plain) .plain)], none⟩).addComponent turn

/-- A scene with Eve and Ada. -/
def oneScene : Script :=
  ⟨[("roles", .array [.object [("name", .string "eve")], .object [("name", .string "ada")]]),
    ("scenes", .array [.object [
      ("doubles", .object [("eve", .string "ada"), ("ada", .string "eve")]),
      ("turns", .array [
        .object [("does", .string "enter"), ("who", .array [.string "eve", .string "ada"])],
        .object [("does", .string "say"), ("from", .string "ada"), ("upon", .string "all")]])]])]⟩

theorem check_plays : plays.check = .ok () := rfl

theorem describes_plays {p : Class → Prop} (hr : ∀ e ∈ plays.resources.entries, p e.2)
    (hv : ∀ name ∈ turn.variants.keys, p (turn.classNamed name)) :
    ∀ c, plays.Describes c → p c := by
  rintro c h
  cases h with
  | resource h => exact hr _ h
  | @variant kind name union _ h hc =>
    rcases List.mem_singleton.1 (mem_of_lookup h) with ⟨⟩
    have hn : name ∈ turn.variants.keys :=
      (turn.isSome_variant?_iff name).1 (Option.isSome_of_eq_some hc)
    have hx := hv name hn
    rwa [Component.classNamed, Option.bind_some, hc] at hx

theorem loneFree_plays : ∀ c, plays.Describes c → (Spec.object c.fields .plain).LoneFree :=
  describes_plays
    (List.forall_mem_cons.2 ⟨⟨rfl, trivial, trivial⟩, List.forall_mem_singleton.2
      ⟨rfl, ⟨trivial, trivial⟩, trivial, trivial⟩⟩)
    (List.forall_mem_cons.2 ⟨⟨rfl, trivial, trivial, trivial⟩, List.forall_mem_singleton.2
      ⟨rfl, trivial, trivial, trivial, trivial⟩⟩)

theorem keyed_plays : plays.Keyed where
  byKey kind c hc := by
    rcases List.mem_singleton.1 (mem_of_lookup hc) with ⟨⟩
    exact ⟨"does", rfl⟩
  loneFree := loneFree_plays
  tag kind c hc name chosen hx f hf hk := by
    rcases List.mem_singleton.1 (mem_of_lookup hc) with ⟨⟩
    have hn := (turn.isSome_variant?_iff name).1 (Option.isSome_of_eq_some hx)
    obtain rfl | hn := List.mem_cons.1 hn
    · obtain rfl := Option.some.inj hx
      obtain rfl | hf := List.mem_cons.1 hf
      · rfl
      · obtain rfl := List.mem_singleton.1 hf
        nomatch hk
    obtain rfl := List.mem_singleton.1 hn
    obtain rfl := Option.some.inj hx
    obtain rfl | hf := List.mem_cons.1 hf
    · rfl
    obtain rfl | hf := List.mem_cons.1 hf
    · nomatch hk
    · obtain rfl := List.mem_singleton.1 hf
      nomatch hk

theorem distinct_plays : plays.Distinct := by
  refine ((distinct_empty.addResource "role" ?_).addResource "scene" ?_).addComponent ?_ ?_
  · exact ⟨by decide, trivial, trivial⟩
  · exact ⟨by decide, ⟨trivial, trivial⟩, trivial, trivial⟩
  · nofun
  · exact List.forall_mem_cons.2 ⟨List.forall_mem_singleton.2 trivial,
      List.forall_mem_singleton.2 (List.forall_mem_cons.2 ⟨trivial, List.forall_mem_singleton.2 trivial⟩)⟩

/-- Eve is called Bob. -/
def toBob : Renaming := ⟨"roles", "eve", "bob"⟩

theorem fresh_toBob : toBob.Fresh plays where
  ne := by decide
  old_ne := by decide
  new_ne := by decide
  spares := describes_plays
    (List.forall_mem_cons.2 ⟨⟨trivial, trivial⟩, List.forall_mem_singleton.2
      ⟨⟨nofun, nofun⟩, trivial, trivial⟩⟩)
    (List.forall_mem_cons.2 ⟨⟨trivial, nofun, trivial⟩, List.forall_mem_singleton.2
      ⟨trivial, nofun, fun _ => by decide, trivial⟩⟩)

theorem edges_renamed_oneScene :
    plays.check = .ok () ∧ plays.Distinct ∧ plays.Keyed ∧ toBob.Fresh plays ∧
      oneScene.value.EveryObject List.Nodup ∧ plays.KeysApartIn toBob oneScene ∧
      ∃ n e edges, (∀ depth, n ≤ depth →
          plays.editScript .reference toBob.editor depth oneScene () = .keep e ()) ∧
        plays.edges oneScene = .ok edges ∧ plays.edges e = .ok (edges.map toBob.edge) ∧
        ∀ x ∈ edges.map toBob.edge, x.2 ≠ ("roles", "eve") := by
  have hd : oneScene.value.EveryObject List.Nodup := by
    simp [oneScene, Script.value, Value.EveryObject, Value.EveryItem, Value.EveryEntry, Entries.keys]
  have ha : plays.KeysApartIn toBob oneScene := by
    refine keysApartIn_of_everyObject ?_
    simp [oneScene, toBob, Script.value, Value.EveryObject, Value.EveryItem, Value.EveryEntry,
      Entries.keys]
  exact ⟨check_plays, distinct_plays, keyed_plays, fresh_toBob, hd, ha,
    edges_renamed plays check_plays distinct_plays keyed_plays fresh_toBob hd ha⟩

-- Eve is named by a key, by the value of another key, and in a list of a turn
example : plays.edges (plays.editScript .reference toBob.editor 6 oneScene ()).value = .ok
    [(⟨"scenes", 0⟩, "roles", "bob"), (⟨"scenes", 0⟩, "roles", "ada"),
      (⟨"scenes", 0⟩, "roles", "ada"), (⟨"scenes", 0⟩, "roles", "bob"),
      (⟨"scenes", 0⟩, "roles", "bob"), (⟨"scenes", 0⟩, "roles", "ada"),
      (⟨"scenes", 0⟩, "roles", "ada")] := by cbv

end Schema

end ScriptSchema
