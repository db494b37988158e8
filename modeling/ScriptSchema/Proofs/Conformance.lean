import Mathlib.Computability.Primrec.List
import Mathlib.Data.List.Permutation
import ScriptSchema.Proofs.Conforms
import ScriptSchema.Proofs.Faultless

/-!
# Exactly the conforming scripts are accepted

Validation stops at a broken `meta` block, and otherwise adds up what it finds in the collections
and among the ids. None of this hides anything: a script is accepted if and only if it conforms to
its schema, which is said here without messages and without an order.

* `Schema.CollectionConforms`, `Schema.Conforming`: a collection, a script;
* `metaIssues_eq_nil_iff`, `collectionConforms_iff`, `duplicateIdIssues_eq_nil_iff`: the parts of a
  report;
* **`validate_eq_ok_iff_conforming`**: which scripts are accepted.
-/

namespace ScriptSchema

/-- No name repeats itself or one before it, first name first. -/
theorem fresh_cons_iff {x : String} {xs before : List String} :
    ((x :: xs).Nodup ∧ ∀ y ∈ x :: xs, y ∉ before) ↔
      x ∉ before ∧ xs.Nodup ∧ ∀ y ∈ xs, y ∉ x :: before := by
  rw [List.nodup_cons, List.forall_mem_cons]
  constructor
  · rintro ⟨⟨hx, hn⟩, hb, hs⟩
    refine ⟨hb, hn, fun y hy h => ?_⟩
    rcases List.mem_cons.1 h with rfl | h
    · exact hx hy
    · exact hs y hy h
  · rintro ⟨hb, hn, hs⟩
    refine ⟨⟨fun hx => hs x hx List.mem_cons_self, hn⟩, hb, fun y hy h => ?_⟩
    exact hs y hy (List.mem_cons_of_mem _ h)

/-! ## The meta block -/

theorem uint64?_eq_some_iff {v : Value} {n : UInt64} : v.uint64? = some n ↔ v = .ofUInt64 n := by
  constructor
  · intro h
    obtain ⟨m, hm, rfl⟩ := Option.map_eq_some_iff.1 h
    obtain ⟨hv, hi⟩ := Option.filter_eq_some_iff.1 hm
    cases v with
    | number x =>
      cases x with
      | int k =>
        obtain rfl : k = m := Option.some.inj hv
        simp only [inUInt64, Bool.and_eq_true, decide_eq_true_eq] at hi
        have hk : (UInt64.ofNat k.toNat).toNat = k.toNat := by
          rw [UInt64.toNat_ofNat']
          omega
        rw [Value.ofUInt64, hk, Int.toNat_of_nonneg hi.1]
      | float x => simp [Value.int?] at hv
    | _ => simp [Value.int?] at hv
  · rintro rfl
    exact Value.uint64?_ofUInt64 n

theorem versionMessage?_eq_none_iff {expected : UInt64} {v : Option Value} :
    versionMessage? expected v = none ↔ v = some (.ofUInt64 expected) := by
  rcases v with _ | v
  · exact ⟨nofun, nofun⟩
  · rw [Option.some.injEq, ← uint64?_eq_some_iff, versionMessage?]
    rcases v.uint64? with _ | n
    · exact ⟨nofun, nofun⟩
    · by_cases h : n = expected <;> simp [h]

theorem metaIssues_eq_nil_iff {expected : UInt64} {block : Option Value} :
    metaIssues expected block = [] ↔
      ∃ fields, block = some (.object fields) ∧
        fields.lookup "version" = some (.ofUInt64 expected) ∧
        ∀ key ∈ Entries.keys fields, key = "version" := by
  unfold metaIssues
  rcases hb : block.bind Value.object? with _ | fields
  · refine ⟨nofun, ?_⟩
    rintro ⟨fields, rfl, _⟩
    nomatch hb
  · obtain ⟨v, rfl, hv⟩ := Option.bind_eq_some_iff.1 hb
    obtain rfl := object_of_object? hv
    simp only [List.append_eq_nil_iff, List.map_eq_nil_iff, Option.toList_eq_nil_iff,
      versionMessage?_eq_none_iff, List.filter_eq_nil_iff, Option.some.injEq, Value.object.injEq,
      exists_eq_left', bne_iff_ne, ne_eq, Decidable.not_not]

namespace Schema

variable (S : Schema) (d : Script)

/-! ## What a conforming script is -/

/-- The entry of a script is an array. Without a registered type it is empty, if that is asked for;
otherwise no name occurs twice in it, and all resources conform to the class of the type. -/
def CollectionConforms (refuseUnknown : Bool) (collection : String) : Prop :=
  ∃ vs, d.array? collection = some vs ∧
    match S.resourceFor? collection with
    | none => vs = [] ∨ refuseUnknown = false
    | some (_, c) => (vs.filterMap nameOf?).Nodup ∧ ∀ v ∈ vs, S.ConformsTo d c v

/-- **The script conforms to the schema and to what is asked of it beside.** -/
structure Conforming (r : Requirements) : Prop where
  version : ∃ block : Entries Value, d.get? Script.metaKey = some (.object block) ∧
    block.lookup "version" = some (.ofUInt64 r.version) ∧ ∀ key ∈ block.keys, key = "version"
  collections : ∀ name ∈ d.names, S.CollectionConforms d r.refuseUnknown name
  /-- The ids that have to be unique are so, as texts, as far as they count. -/
  ids : ∀ kind field, (kind, field) ∈ S.idFields → ∃ is, S.instances d kind = .ok is ∧
    ((is.filterMap (countedId? field)).map Value.text).Nodup

variable {S d}

/-! ## Collections -/

theorem resourceIssues_eq {collection : String} {type : String} {c : Class}
    (h : S.resourceFor? collection = some (type, c)) (v : Value) :
    S.resourceIssues d collection v = (S.classProblems d "" c v).map
      (List.map fun p => ⟨resourcePath collection v, collection, p.message⟩) := by
  unfold resourceIssues
  rw [h]
  rfl

theorem resourceIssues_eq_nil_iff {collection : String} {type : String} {c : Class}
    (h : S.resourceFor? collection = some (type, c)) {v : Value} :
    S.resourceIssues d collection v = .ok [] ↔ S.classProblems d "" c v = .ok [] := by
  rw [resourceIssues_eq h, Search.map_eq_nil_iff]

theorem resourceIssues_completes_iff {collection : String} {type : String} {c : Class}
    (h : S.resourceFor? collection = some (type, c)) {v : Value} :
    Search.Completes (S.resourceIssues d collection v) ↔
      Search.Completes (S.classProblems d "" c v) := by
  rw [resourceIssues_eq h, Search.map_completes_iff]

theorem memberIssues_cons (collection : String) (before : List String) (v : Value)
    (rest : List Value) :
    S.memberIssues d collection before (v :: rest) =
      Search.both
        (Search.both (.ok (repeatedName collection before v)) (S.resourceIssues d collection v))
        (S.memberIssues d collection ((nameOf? v).toList ++ before) rest) := by
  rw [memberIssues]
  rcases S.resourceIssues d collection v with _ | own
  · rfl
  · rcases S.memberIssues d collection ((nameOf? v).toList ++ before) rest with _ | others <;> rfl

theorem memberIssues_completes_iff {collection : String} {before : List String}
    {vs : List Value} : Search.Completes (S.memberIssues d collection before vs) ↔
      ∀ v ∈ vs, Search.Completes (S.resourceIssues d collection v) := by
  induction vs generalizing before with
  | nil => exact ⟨fun _ => nofun, fun _ => ⟨[], rfl⟩⟩
  | cons v rest ih =>
    have hname : Search.Completes (.ok (repeatedName collection before v)) := ⟨_, rfl⟩
    rw [memberIssues_cons, Search.both_completes_iff, Search.both_completes_iff, ih,
      List.forall_mem_cons, and_iff_right hname]

/-- Nothing is wrong in a collection if no name repeats one before it, and nothing is wrong with any
resource. -/
theorem memberIssues_eq_nil_iff {collection : String} {before : List String} {vs : List Value} :
    S.memberIssues d collection before vs = .ok [] ↔
      ((vs.filterMap nameOf?).Nodup ∧ ∀ y ∈ vs.filterMap nameOf?, y ∉ before) ∧
        ∀ v ∈ vs, S.resourceIssues d collection v = .ok [] := by
  induction vs generalizing before with
  | nil => simp [memberIssues]
  | cons v rest ih =>
    rw [memberIssues_cons, Search.both_eq_nil_iff, Search.both_eq_nil_iff, ih, List.forall_mem_cons]
    rcases hn : nameOf? v with _ | name
    · have hr : repeatedName collection before v = [] := by rw [repeatedName, hn]
      rw [List.filterMap_cons_none hn, hr]
      simp only [true_and, Option.toList_none, List.nil_append]
      exact and_left_comm
    · have hr : repeatedName collection before v = [] ↔ name ∉ before := by
        rw [repeatedName, hn]
        by_cases hb : name ∈ before <;> simp [hb]
      rw [List.filterMap_cons_some hn, fresh_cons_iff, Except.ok.injEq, hr]
      simp only [Option.toList_some, List.singleton_append, and_assoc]
      refine and_congr_right fun _ => ?_
      exact and_left_comm.trans (and_congr_right fun _ => and_left_comm)

/-- A collection of a registered type is looked at resource by resource. -/
theorem collectionIssues_eq {refuseUnknown : Bool} {collection : String} {vs : List Value}
    (ha : d.array? collection = some vs) (hr : (S.resourceFor? collection).isNone = false) :
    S.collectionIssues d refuseUnknown collection = S.memberIssues d collection [] vs := by
  rw [collectionIssues, ha]
  simp only [hr, Bool.false_eq_true, if_false]

/-- Nothing is wrong with a collection if there is nothing in it that should not be, no name occurs
twice, and no resource has problems. -/
theorem collectionIssues_eq_nil_iff {refuseUnknown : Bool} {collection : String} :
    S.collectionIssues d refuseUnknown collection = .ok [] ↔
      ∃ vs, d.array? collection = some vs ∧
        match S.resourceFor? collection with
        | none => vs = [] ∨ refuseUnknown = false
        | some (_, c) =>
          (vs.filterMap nameOf?).Nodup ∧ ∀ v ∈ vs, S.classProblems d "" c v = .ok [] := by
  rcases ha : d.array? collection with _ | vs
  · rw [collectionIssues, ha]
    exact ⟨nofun, nofun⟩
  simp only [Option.some.injEq, exists_eq_left']
  rcases hr : S.resourceFor? collection with _ | ⟨type, c⟩
  · rw [collectionIssues, ha, hr]
    cases refuseUnknown <;> simp
  · rw [collectionIssues_eq ha (by rw [hr]; rfl), memberIssues_eq_nil_iff]
    simp only [resourceIssues_eq_nil_iff hr, List.not_mem_nil, not_false_eq_true, implies_true,
      and_true]

/-- The issues of a collection can be told if the problems of its resources can. -/
theorem collectionIssues_completes_iff {refuseUnknown : Bool} {collection : String} :
    Search.Completes (S.collectionIssues d refuseUnknown collection) ↔
      ∀ vs type c, d.array? collection = some vs → S.resourceFor? collection = some (type, c) →
        ∀ v ∈ vs, Search.Completes (S.classProblems d "" c v) := by
  rcases ha : d.array? collection with _ | vs
  · rw [collectionIssues, ha]
    exact ⟨fun _ _ _ _ => nofun, fun _ => ⟨_, rfl⟩⟩
  rcases hr : S.resourceFor? collection with _ | ⟨type, c⟩
  · rw [collectionIssues, ha, hr]
    exact ⟨fun _ _ _ _ _ => nofun, fun _ => ⟨_, rfl⟩⟩
  · rw [collectionIssues_eq ha (by rw [hr]; rfl), memberIssues_completes_iff]
    simp only [resourceIssues_completes_iff hr, Option.some.injEq, Prod.mk.injEq]
    constructor
    · rintro h _ _ _ rfl ⟨rfl, rfl⟩
      exact h
    · exact fun h => h vs type c rfl ⟨rfl, rfl⟩

/-- **Nothing is wrong with a collection if and only if it conforms.** -/
theorem collectionConforms_iff {refuseUnknown : Bool} {collection : String}
    (hx : Search.Completes (S.collectionIssues d refuseUnknown collection)) :
    S.collectionIssues d refuseUnknown collection = .ok [] ↔
      S.CollectionConforms d refuseUnknown collection := by
  rw [collectionIssues_eq_nil_iff, CollectionConforms]
  refine exists_congr fun vs => and_congr_right fun ha => ?_
  rcases hr : S.resourceFor? collection with _ | ⟨type, c⟩
  · exact Iff.rfl
  · refine and_congr_right fun _ => forall_congr' fun v => forall_congr' fun hv => ?_
    exact classProblems_eq_nil_iff (collectionIssues_completes_iff.1 hx vs type c ha hr v hv)

/-! ## Unique ids -/

theorem repeatedIds_eq_nil_iff {kind field : String} {before : List String} {is : List Instance} :
    repeatedIds kind field before is = [] ↔
      ((is.filterMap (countedId? field)).map Value.text).Nodup ∧
        ∀ y ∈ (is.filterMap (countedId? field)).map Value.text, y ∉ before := by
  induction is generalizing before with
  | nil => simp [repeatedIds]
  | cons i rest ih =>
    rw [repeatedIds]
    rcases hi : countedId? field i with _ | id
    · rw [List.filterMap_cons_none hi]
      exact ih
    · rw [List.filterMap_cons_some hi, List.map_cons, fresh_cons_iff, ← ih, List.append_eq_nil_iff]
      refine and_congr_left fun _ => ?_
      by_cases hb : id.text ∈ before <;> simp [hb]

theorem duplicateIdIssues_eq_nil_iff {kind field : String} :
    S.duplicateIdIssues d kind field = .ok [] ↔ ∃ is, S.instances d kind = .ok is ∧
      ((is.filterMap (countedId? field)).map Value.text).Nodup := by
  rw [duplicateIdIssues, map_eq_ok_iff]
  simp only [repeatedIds_eq_nil_iff, List.not_mem_nil, not_false_eq_true, implies_true, and_true]

/-! ## The whole script -/

/-- Nothing is wrong in the `meta` block, nor outside of it. -/
theorem validate_eq_ok_iff {r : Requirements} :
    S.validate d r = .ok () ↔
      metaIssues r.version (d.get? Script.metaKey) = [] ∧
        S.contentIssues d r.refuseUnknown = .ok [] := by
  unfold validate
  rcases metaIssues r.version (d.get? Script.metaKey) with _ | ⟨i, is⟩
  · rcases S.contentIssues d r.refuseUnknown with e | _ | ⟨i, is⟩ <;> simp
  · simp

theorem contentIssues_eq_nil_iff {refuseUnknown : Bool} :
    S.contentIssues d refuseUnknown = .ok [] ↔
      (∀ name ∈ d.names, S.collectionIssues d refuseUnknown name = .ok []) ∧
        ∀ f ∈ S.idFields, S.duplicateIdIssues d f.1 f.2 = .ok [] := by
  rw [contentIssues_eq, Search.both_eq_nil_iff, Search.gather_eq_nil_iff, Search.gather_eq_nil_iff,
    List.forall_mem_map, List.forall_mem_map]

/-- **The accepted scripts are the conforming ones**, as far as validation returns: the descent into
a script must not be endless. -/
theorem validate_eq_ok_iff_conforming (h : S.check = .ok ()) (d : Script) (r : Requirements)
    (hr : ∀ kind, S.validate d r ≠ .error (.schema (.circular kind))) :
    S.validate d r = .ok () ↔ S.Conforming d r := by
  rw [validate_eq_ok_iff]
  constructor
  · rintro ⟨hm, hc⟩
    obtain ⟨hn, hi⟩ := contentIssues_eq_nil_iff.1 hc
    exact
      { version := metaIssues_eq_nil_iff.1 hm
        collections := fun name hm => (collectionConforms_iff ⟨[], hn name hm⟩).1 (hn name hm)
        ids := fun kind field hf => duplicateIdIssues_eq_nil_iff.1 (hi (kind, field) hf) }
  · intro hd
    have hm : metaIssues r.version (d.get? Script.metaKey) = [] :=
      metaIssues_eq_nil_iff.2 hd.version
    -- without a broken `meta` block, validation does look at the content
    have hx : Search.Completes (S.contentIssues d r.refuseUnknown) := by
      refine (contentIssues_blameless (S.sound_of_check h) d _).completes fun kind hk => hr kind ?_
      rw [validate, hm, hk]
      rfl
    have hn : ∀ name ∈ d.names, Search.Completes (S.collectionIssues d r.refuseUnknown name) := by
      rw [contentIssues_eq, Search.both_completes_iff, Search.gather_completes_iff] at hx
      exact List.forall_mem_map.1 hx.1
    refine ⟨hm, contentIssues_eq_nil_iff.2 ⟨fun name hm => ?_, fun f hf => ?_⟩⟩
    · exact (collectionConforms_iff (hn name hm)).2 (hd.collections name hm)
    · exact duplicateIdIssues_eq_nil_iff.2 (hd.ids f.1 f.2 hf)

/-- Nothing is wrong with the scenes of a script if nothing is wrong with their names, and with each
of them. -/
theorem collectionIssues_scenes {refuseUnknown : Bool}
    (ha : d.array? "scenes" = some (d.collection "scenes"))
    (hm : scenes.memberIssues d "scenes" [] (d.collection "scenes") = .ok []) :
    scenes.collectionIssues d refuseUnknown "scenes" = .ok [] := by
  have hs : (scenes.resourceFor? "scenes").isNone = false := by decide
  rw [collectionIssues_eq ha hs]
  exact hm

/-- A script of scenes alone is accepted part by part. -/
theorem validate_scenes {r : Requirements}
    (hmeta : metaIssues r.version (d.get? Script.metaKey) = []) (hn : d.names = ["scenes"])
    (ha : d.array? "scenes" = some (d.collection "scenes"))
    (hm : scenes.memberIssues d "scenes" [] (d.collection "scenes") = .ok [])
    (hi : scenes.duplicateIdIssues d "cue" "id" = .ok []) : scenes.validate d r = .ok () := by
  refine validate_eq_ok_iff.2 ⟨hmeta, contentIssues_eq_nil_iff.2 ⟨?_, ?_⟩⟩
  · rw [hn, List.forall_mem_singleton]
    exact collectionIssues_scenes ha hm
  · exact List.forall_mem_singleton.2 hi

/-- Two scenes, the first of which has a block of cues. -/
def twoScenes : Script :=
  ⟨[("meta", .object [("version", .number (.int 1))]),
    ("scenes", .array [
      .object [("name", .string "day"), ("next", .string "eve"),
        ("cues", .array [
          .object [("type", .string "line"), ("id", .number (.int 1))],
          .object [("type", .string "block"), ("id", .number (.int 2)),
            ("cues", .array [
              .object [("type", .string "line"), ("id", .number (.int 3)),
                ("after", .number (.int 1))]])]])],
      .object [("name", .string "eve")]])]⟩

theorem validate_twoScenes : scenes.validate twoScenes ⟨1, true⟩ = .ok () := by
  -- ids are looked up by the equations of `List.lookup` that `Primrec.List` brings along
  have hm : scenes.memberIssues twoScenes "scenes" [] (twoScenes.collection "scenes") = .ok [] := by
    cbv
  have hi : scenes.duplicateIdIssues twoScenes "cue" "id" = .ok [] := by cbv
  exact validate_scenes (by cbv) (by cbv) (by cbv) hm hi

theorem validate_eq_ok_iff_conforming_twoScenes :
    scenes.check = .ok () ∧
      (∀ kind, scenes.validate twoScenes ⟨1, true⟩ ≠ .error (.schema (.circular kind))) ∧
      (scenes.validate twoScenes ⟨1, true⟩ = .ok () ↔ scenes.Conforming twoScenes ⟨1, true⟩) := by
  have hr (kind) : scenes.validate twoScenes ⟨1, true⟩ ≠ .error (.schema (.circular kind)) := by
    rw [validate_twoScenes]
    simp
  exact ⟨rfl, hr, validate_eq_ok_iff_conforming rfl twoScenes ⟨1, true⟩ hr⟩

end Schema

end ScriptSchema
