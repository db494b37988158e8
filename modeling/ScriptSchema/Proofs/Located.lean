import ScriptSchema.Proofs.Descent
import ScriptSchema.Proofs.Spot

/-!
# Where the visited parts lie

The walk through a value once more, with the spot of every visit. It sees the same visits in the
same order, and the value that is handed over at a visit lies at its spot.

* `Schema.spotsWhile`, `Schema.spots`: the walk through a value, with spots;
* `spotsWhile_list_eq`, …: the spots of a value from those of its parts;
* **`map_part_spots`**: it is the same walk;
* `Spot.Lies`, **`lies_spots`**: where the visited values lie;
* `Schema.scriptSpots`, **`map_part_scriptSpots`**, **`lies_scriptSpots`**: the same for a script.
-/

namespace ScriptSchema

/-! ## One walk after the other -/

namespace Trace

variable {α β : Type}

theorem each_attach (f : β → Trace α) (bs : List β) :
    each (fun b : { b // b ∈ bs } => f b.1) bs.attach = each f bs := by
  rw [← each_map f Subtype.val, List.attach_map_subtype_val]

theorem each_zipIdx (f : β → Trace α) (bs : List β) :
    each (fun m => f m.1) bs.zipIdx = each f bs := by
  rw [← each_map f Prod.fst, List.zipIdx_map_fst]

/-- All that a walk sees has a property, whether or not it meets an error. -/
def Sees (p : α → Prop) (t : Trace α) : Prop := ∀ a ∈ t.seen, p a

theorem sees_nil {p : α → Prop} : Sees p nil := nofun

theorem sees_ofList {p : α → Prop} {as : List α} : Sees p (ofList as) ↔ ∀ a ∈ as, p a := .rfl

theorem Sees.append {p : α → Prop} {t u : Trace α} (ht : Sees p t) (hu : Sees p u) :
    Sees p (t ++ u) := by
  rcases he : t.error with _ | e
  · rw [append_of_none he]
    exact List.forall_mem_append.2 ⟨ht, hu⟩
  · rw [append_of_some he]
    exact ht

theorem Sees.each {p : α → Prop} {f : β → Trace α} {bs : List β} (h : ∀ b ∈ bs, Sees p (f b)) :
    Sees p (each f bs) := by
  induction bs with
  | nil => exact sees_nil
  | cons b bs ih =>
    rw [List.forall_mem_cons] at h
    exact h.1.append (ih h.2)

theorem sees_map {p : α → Prop} {f : β → α} {t : Trace β} :
    Sees p (t.map f) ↔ Sees (fun b => p (f b)) t := List.forall_mem_map

end Trace

/-! ## Spots of visits -/

/-- The value that is handed over at the visit lies at the spot; only keys lie nowhere. -/
def Spot.Lies (v : Value) (x : Spot Visit) : Prop :=
  match x.way? with
  | none => x.part.onKey = true
  | some way => x.part.onKey = false ∧ v.at? way = some x.part.value

theorem Value.child?_of_array? {v w : Value} {vs : List Value} {i : Nat} (hv : v.array? = some vs)
    (h : (w, i) ∈ vs.zipIdx) : v.child? i = some w := by
  obtain rfl := array_of_array? hv
  exact List.mk_mem_zipIdx_iff_getElem?.1 h

theorem Value.child?_of_object? {v : Value} {es : Entries Value} {e : String × Value} {i : Nat}
    (hv : v.object? = some es) (h : (e, i) ∈ es.zipIdx) : v.child? i = some e.2 := by
  obtain rfl := object_of_object? hv
  rw [child?, List.mk_mem_zipIdx_iff_getElem?.1 h]
  rfl

theorem Value.child?_of_lookup {es : Entries Value} {key : String} {w : Value}
    (h : es.lookup key = some w) : (object es).child? (es.keys.idxOf key) = some w := by
  induction es with
  | nil => nomatch h
  | cons e es ih =>
    obtain ⟨k, u⟩ := e
    by_cases hk : key = k
    · subst hk
      rw [List.lookup_cons_self] at h
      rw [Entries.keys, List.map_cons, List.idxOf_cons_self, child?]
      exact h
    · rw [List.lookup_cons, beq_eq_false_iff_ne.2 hk] at h
      have hk' : (k == key) = false := beq_eq_false_iff_ne.2 fun h => hk h.symm
      rw [Entries.keys, List.map_cons, List.idxOf_cons, hk', cond_false]
      exact ih h

theorem Value.setChild_of_lookup {es : Entries Value} {key : String} {w : Value}
    (h : es.lookup key = some w) (u : Value) :
    (object es).setChild (es.keys.idxOf key) u = object (es.put key u) := by
  induction es with
  | nil => nomatch h
  | cons e es ih =>
    obtain ⟨k, u'⟩ := e
    by_cases hk : k = key
    · subst hk
      rw [Entries.keys, List.map_cons, List.idxOf_cons_self, Entries.put, if_pos rfl]
      rfl
    · have hk' : (k == key) = false := beq_eq_false_iff_ne.2 hk
      rw [List.lookup_cons, beq_eq_false_iff_ne.2 fun h => hk h.symm] at h
      rw [Entries.keys, List.map_cons, List.idxOf_cons, hk', cond_false, Entries.put, if_neg hk]
      exact congrArg (fun v => object ((k, u') :: v)) (object.inj (ih h))

namespace Spot.Lies

theorem here (path : String) (spec : Spec) (v : Value) :
    Spot.Lies v ⟨some [], path, spec, false, v⟩ := ⟨rfl, rfl⟩

theorem below {v u : Value} {i : Nat} (h : v.child? i = some u) {x : Spot Visit}
    (hx : x.Lies u) : (x.below i).Lies v := by
  obtain ⟨_ | way, visit⟩ := x
  · exact hx
  · obtain ⟨hk, hw⟩ := hx
    refine ⟨hk, ?_⟩
    change v.at? (i :: way) = _
    rw [Value.at?, h]
    exact hw

end Spot.Lies

namespace Schema

variable (S : Schema)

mutual

/-- The walk through a value by a spec, with the spots of the visits, while components of the
present kinds describe the value. -/
def spotsWhile (focus : Focus) (present : List String) (path : String) (spec : Spec) (v : Value) :
    Trace (Spot Visit) :=
  match spec with
  | .terminal t _ => if focus.takes t then .ofList [⟨some [], path, spec, false, v⟩] else .nil
  | .list items _ =>
    match hv : v.array? with
    | none => .nil
    | some vs =>
      .each (fun m : { m // m ∈ vs.zipIdx } =>
        have := sizeOf_item hv (List.fst_mem_of_mem_zipIdx m.2)
        (spotsWhile focus [] (Path.item path m.1.2) items m.1.1).map (Spot.below m.1.2))
        vs.zipIdx.attach
  | .dictionary keys values _ =>
    match hv : v.object? with
    | none => .nil
    | some es =>
      (keyVisits focus path keys es).map (Spot.mk none) ++
      .each (fun m : { m // m ∈ es.zipIdx } =>
        have := (sizeOf_entry hv (List.fst_mem_of_mem_zipIdx m.2)).2
        (spotsWhile focus [] (Path.entry path m.1.1.1) values m.1.1.2).map (Spot.below m.1.2))
        es.zipIdx.attach
  | .object fields _ => fieldSpotsWhile focus present path fields v
  | .component kind _ =>
    (if focus.takesComponent kind then .ofList [⟨some [], path, spec, false, v⟩] else .nil) ++
      match hc : S.components.find? kind with
      | none => .fail (.unknownComponent kind)
      | some c =>
        if !v.isObject then .nil
        else if hk : kind ∈ present then .fail (.circular kind)
        else
          have := S.idle_cons_lt hc hk
          fieldSpotsWhile focus (kind :: present) path (c.classAt v).fields v
termination_by (sizeOf v, S.idle present, sizeOf spec)

/-- The walk through a value by fields, with the spots of the visits, while components of the
present kinds describe the value. -/
def fieldSpotsWhile (focus : Focus) (present : List String) (path : String) (fields : Fields)
    (v : Value) : Trace (Spot Visit) :=
  match hl : fields.lone? with
  | some spec =>
    have := sizeOf_lone hl
    spotsWhile focus present path spec v
  | none =>
    match hv : v.object? with
    | none => .nil
    | some es =>
      .each (fun f : String × Spec =>
        match hw : es.lookup f.1 with
        | none => .nil
        | some w =>
          have := (sizeOf_entry hv (mem_of_lookup hw)).2
          (spotsWhile focus [] (Path.field path f.1) f.2 w).map
            (Spot.below (es.keys.idxOf f.1))) fields
termination_by (sizeOf v, S.idle present, sizeOf fields)

end

/-- **The walk through a value by a spec, with spots.** -/
def spots (focus : Focus) (path : String) (spec : Spec) (v : Value) : Trace (Spot Visit) :=
  S.spotsWhile focus [] path spec v

/-! ## Level by level -/

section Levels

variable (focus : Focus) (present : List String) (path : String)

theorem spotsWhile_terminal (t : Terminal) (info : Info) (v : Value) :
    S.spotsWhile focus present path (.terminal t info) v =
      if focus.takes t then .ofList [⟨some [], path, .terminal t info, false, v⟩] else .nil := by
  rw [spotsWhile]

theorem spotsWhile_list_eq (items : Spec) (info : Info) (v : Value) :
    S.spotsWhile focus present path (.list items info) v =
      match v.array? with
      | none => .nil
      | some vs =>
        .each (fun m => (S.spots focus (Path.item path m.2) items m.1).map (Spot.below m.2))
          vs.zipIdx := by
  rw [spotsWhile]
  split
  · rename_i hv
    rw [hv]
  · rename_i vs hv
    refine (Trace.each_attach
      (fun m => (S.spots focus (Path.item path m.2) items m.1).map (Spot.below m.2))
      vs.zipIdx).trans ?_
    rw [hv]

theorem spotsWhile_dictionary_eq (keys values : Spec) (info : Info) (v : Value) :
    S.spotsWhile focus present path (.dictionary keys values info) v =
      match v.object? with
      | none => .nil
      | some es => (keyVisits focus path keys es).map (Spot.mk none) ++
          .each (fun m => (S.spots focus (Path.entry path m.1.1) values m.1.2).map (Spot.below m.2))
            es.zipIdx := by
  rw [spotsWhile]
  split
  · rename_i hv
    rw [hv]
  · rename_i es hv
    refine (congrArg ((keyVisits focus path keys es).map (Spot.mk none) ++ ·) <| Trace.each_attach
      (fun m => (S.spots focus (Path.entry path m.1.1) values m.1.2).map (Spot.below m.2))
      es.zipIdx).trans ?_
    rw [hv]

theorem spotsWhile_object (fields : Fields) (info : Info) (v : Value) :
    S.spotsWhile focus present path (.object fields info) v =
      S.fieldSpotsWhile focus present path fields v := by
  rw [spotsWhile]

theorem spotsWhile_component_eq (kind : String) (info : Info) (v : Value) :
    S.spotsWhile focus present path (.component kind info) v =
      (if focus.takesComponent kind then .ofList [⟨some [], path, .component kind info, false, v⟩]
        else .nil) ++
      match S.components.find? kind with
      | none => .fail (.unknownComponent kind)
      | some c =>
        if v.isObject then
          if kind ∈ present then .fail (.circular kind)
          else S.fieldSpotsWhile focus (kind :: present) path (c.classAt v).fields v
        else .nil := by
  rw [spotsWhile]
  congr 1
  split
  · rename_i hc
    rw [hc]
  · rename_i c hc
    simp only [hc]
    cases v.isObject
    · rfl
    · by_cases hk : kind ∈ present
      · simp [hk]
      · simp [hk]

theorem fieldSpotsWhile_eq (fields : Fields) (v : Value) :
    S.fieldSpotsWhile focus present path fields v =
      match fields.lone? with
      | some spec => S.spotsWhile focus present path spec v
      | none =>
        match v.object? with
        | none => .nil
        | some es =>
          .each (fun f => (es.lookup f.1).elim .nil fun w =>
            (S.spots focus (Path.field path f.1) f.2 w).map (Spot.below (es.keys.idxOf f.1)))
            fields := by
  rw [fieldSpotsWhile]
  split
  · rename_i spec hl
    simp only [hl]
  · rename_i hl
    simp only [hl]
    split
    · rename_i hv
      rw [hv]
    · rename_i es hv
      simp only [hv]
      congr 1
      funext f
      split
      · rename_i hw
        rw [hw]
        rfl
      · rename_i w hw
        simp only [hw, Option.elim_some, spots]

end Levels

/-! ## The same walk -/

theorem map_part_below {α : Type} (i : Nat) (t : Trace (Spot α)) :
    (t.map (Spot.below i)).map Spot.part = t.map Spot.part := by
  simp only [Trace.map, List.map_map, Function.comp_def, Spot.below]

theorem map_part_descent (focus : Focus) :
    S.Descent
      (fun present spec v => ∀ path, (S.spotsWhile focus present path spec v).map Spot.part =
        S.visitsWhile focus present path spec v)
      (fun present fields v => ∀ path,
        (S.fieldSpotsWhile focus present path fields v).map Spot.part =
          S.fieldVisitsWhile focus present path fields v) where
  terminal present t info v path := by
    rw [spotsWhile_terminal, visitsWhile_terminal]
    split <;> rfl
  list present items info v ih path := by
    rw [spotsWhile_list_eq, visitsWhile_list_eq]
    rcases hv : v.array? with _ | vs
    · rfl
    · dsimp only
      rw [Trace.map_each]
      refine Trace.each_congr fun m hm => ?_
      rw [map_part_below]
      exact ih vs hv m.1 (List.fst_mem_of_mem_zipIdx hm) _
  dictionary present keys values info v ih path := by
    rw [spotsWhile_dictionary_eq, visitsWhile_dictionary_eq]
    rcases hv : v.object? with _ | es
    · rfl
    · dsimp only
      have hk : ((keyVisits focus path keys es).map (Spot.mk none)).map Spot.part =
          keyVisits focus path keys es := by
        simp only [Trace.map, List.map_map, Function.comp_def, List.map_id']
      rw [Trace.map_append, hk, Trace.map_each, ← Trace.each_zipIdx
        (fun e : String × Value => S.visits focus (Path.entry path e.1) values e.2)]
      refine congrArg (keyVisits focus path keys es ++ ·) (Trace.each_congr fun m hm => ?_)
      rw [map_part_below]
      exact (ih es hv m.1 (List.fst_mem_of_mem_zipIdx hm)).2 _
  object present fields info v ih path := by
    rw [spotsWhile_object, visitsWhile_object]
    exact ih path
  component present kind info v ih path := by
    rw [spotsWhile_component_eq, visitsWhile_component_eq, Trace.map_append]
    congr 1
    · split <;> rfl
    rcases hc : S.components.find? kind with _ | c
    · rfl
    dsimp only
    split
    · split
      · rfl
      · rename_i hk
        exact ih c hc hk _ path
    · rfl
  fields present fields v lone parts path := by
    rw [fieldSpotsWhile_eq, fieldVisitsWhile_eq]
    rcases hl : fields.lone? with _ | spec
    · dsimp only
      rcases hv : v.object? with _ | es
      · rfl
      · dsimp only
        rw [Trace.map_each]
        refine Trace.each_congr fun f hf => ?_
        rcases hw : es.lookup f.1 with _ | w
        · rfl
        · rw [Option.elim_some, map_part_below]
          exact parts es hv f hf w hw _
    · exact lone spec hl path

/-- **The walk with spots is the walk.** -/
theorem map_part_spots (focus : Focus) (path : String) (spec : Spec) (v : Value) :
    (S.spots focus path spec v).map Spot.part = S.visits focus path spec v :=
  (S.map_part_descent focus).spec [] spec v path

/-! ## Where the visited values lie -/

theorem lies_descent (focus : Focus) :
    S.Descent
      (fun present spec v => ∀ path,
        (S.spotsWhile focus present path spec v).Sees (Spot.Lies v))
      (fun present fields v => ∀ path,
        (S.fieldSpotsWhile focus present path fields v).Sees (Spot.Lies v)) where
  terminal present t info v path := by
    rw [spotsWhile_terminal]
    split
    · exact Trace.sees_ofList.2 (List.forall_mem_singleton.2 (.here path _ v))
    · exact Trace.sees_nil
  list present items info v ih path := by
    rw [spotsWhile_list_eq]
    rcases hv : v.array? with _ | vs
    · exact Trace.sees_nil
    · refine .each fun m hm => Trace.sees_map.2 fun x hx => ?_
      exact .below (Value.child?_of_array? hv hm)
        (ih vs hv m.1 (List.fst_mem_of_mem_zipIdx hm) _ x hx)
  dictionary present keys values info v ih path := by
    rw [spotsWhile_dictionary_eq]
    rcases hv : v.object? with _ | es
    · exact Trace.sees_nil
    · refine .append ?_ (.each fun m hm => Trace.sees_map.2 fun x hx => ?_)
      · unfold keyVisits
        split
        · refine Trace.sees_map.2 (Trace.sees_ofList.2 (List.forall_mem_map.2 fun k _ => ?_))
          exact rfl
        · exact Trace.sees_nil
      · exact .below (Value.child?_of_object? hv hm)
          ((ih es hv m.1 (List.fst_mem_of_mem_zipIdx hm)).2 _ x hx)
  object present fields info v ih path := by
    rw [spotsWhile_object]
    exact ih path
  component present kind info v ih path := by
    rw [spotsWhile_component_eq]
    refine .append ?_ ?_
    · split
      · exact Trace.sees_ofList.2 (List.forall_mem_singleton.2 (.here path _ v))
      · exact Trace.sees_nil
    rcases hc : S.components.find? kind with _ | c
    · exact nofun
    dsimp only
    split
    · split
      · exact nofun
      · rename_i hk
        exact ih c hc hk _ path
    · exact Trace.sees_nil
  fields present fields v lone parts path := by
    rw [fieldSpotsWhile_eq]
    rcases hl : fields.lone? with _ | spec
    · dsimp only
      rcases hv : v.object? with _ | es
      · exact Trace.sees_nil
      · refine .each fun f hf => ?_
        rcases hw : es.lookup f.1 with _ | w
        · exact Trace.sees_nil
        · obtain rfl := object_of_object? hv
          refine Trace.sees_map.2 fun x hx => ?_
          exact .below (Value.child?_of_lookup hw) (parts es hv f hf w hw _ x hx)
    · exact lone spec hl path

/-- **The value that is handed over at a visit lies at its spot.** -/
theorem lies_spots (focus : Focus) (path : String) (spec : Spec) (v : Value) :
    (S.spots focus path spec v).Sees (Spot.Lies v) :=
  (S.lies_descent focus).spec [] spec v path

/-! ## Scripts -/

/-- The walk through one resource of a collection, with spots. -/
def memberSpots (focus : Focus) (collection : String) (fields : Fields) (member : Value × Nat) :
    Trace (Spot Finding) :=
  (S.fieldSpotsWhile focus [] "" fields member.1).map
    (Spot.map fun visit => ⟨⟨collection, member.2⟩, nameOf? member.1, visit⟩)

/-- The walk through the resources of an entry of a script, with spots. -/
def entrySpots (focus : Focus) (entry : String × Value) : Trace (Spot Finding) :=
  if entry.1 = Script.metaKey then .nil
  else
    match S.resourceFor? entry.1, entry.2 with
    | some (_, c), .array vs =>
      .each (fun m => (S.memberSpots focus entry.1 c.fields m).map (Spot.below m.2)) vs.zipIdx
    | _, _ => .nil

/-- **The walk through a script, with spots.** -/
def scriptSpots (focus : Focus) (d : Script) : Trace (Spot Finding) :=
  .each (fun m => (S.entrySpots focus m.1).map (Spot.below m.2)) d.entries.zipIdx

variable (focus : Focus)

theorem map_part_memberSpots (collection : String) (fields : Fields) (member : Value × Nat) :
    (S.memberSpots focus collection fields member).map Spot.part =
      S.memberFindings focus collection fields member := by
  rw [memberFindings, fieldVisits, ← (S.map_part_descent focus).fieldsOf [] fields member.1 ""]
  simp only [memberSpots, Trace.map, List.map_map, Function.comp_def, Spot.map]

theorem map_part_entrySpots (entry : String × Value) :
    (S.entrySpots focus entry).map Spot.part = S.entryFindings focus entry := by
  unfold entrySpots entryFindings
  obtain ⟨name, v⟩ := entry
  dsimp only
  split
  · rfl
  rcases S.resourceFor? name with _ | ⟨type, c⟩
  · rfl
  cases v with
  | array vs =>
    dsimp only
    rw [Trace.map_each]
    refine Trace.each_congr fun m _ => ?_
    rw [map_part_below, map_part_memberSpots]
  | _ => rfl

/-- **The walk through a script with spots is the walk.** -/
theorem map_part_scriptSpots (d : Script) :
    (S.scriptSpots focus d).map Spot.part = S.findings focus d := by
  rw [scriptSpots, findings, ← Trace.each_zipIdx (S.entryFindings focus), Trace.map_each]
  refine Trace.each_congr fun m _ => ?_
  rw [map_part_below, map_part_entrySpots]

theorem lies_memberSpots (collection : String) (fields : Fields) (member : Value × Nat) :
    (S.memberSpots focus collection fields member).Sees
      fun x => (x.map Finding.visit).Lies member.1 :=
  Trace.sees_map.2 fun x hx => (S.lies_descent focus).fieldsOf [] fields member.1 "" x hx

theorem lies_entrySpots (entry : String × Value) :
    (S.entrySpots focus entry).Sees fun x => (x.map Finding.visit).Lies entry.2 := by
  unfold entrySpots
  split
  · exact Trace.sees_nil
  · split
    · rename_i c vs _ hv
      refine .each fun m hm => Trace.sees_map.2 fun x hx => ?_
      rw [hv]
      exact Spot.Lies.below (Value.child?_of_array? rfl hm)
        (S.lies_memberSpots focus entry.1 c.fields m x hx)
    · exact Trace.sees_nil

/-- **The value that is handed over in a script lies at its spot.** -/
theorem lies_scriptSpots (d : Script) :
    (S.scriptSpots focus d).Sees fun x => (x.map Finding.visit).Lies d.value := by
  refine .each fun m hm => Trace.sees_map.2 fun x hx => ?_
  exact Spot.Lies.below (Value.child?_of_object? rfl hm) (S.lies_entrySpots focus m.1 x hx)

end Schema

end ScriptSchema
