import Mathlib.Data.List.Basic
import Mathlib.Tactic.Set
import ScriptSchema.Proofs.Integrity

/-!
# References to instances are unambiguous

Ids that have to be unique are compared as texts, and some of them do not count. To look for an
instance, ids are read as whole numbers instead. The two agree on every whole number but zero, which
does not count and can be looked for nevertheless.

* `countedId?_of_id?`: a whole number other than zero counts, as itself;
* `countP_id_le_one`: if the ids that count are unique, no two instances have the same such number;
* **`single_instance_of_validate`**: in an accepted script a reference has one instance;
* `not_single_instance`: except that several may have zero.
-/

namespace ScriptSchema

/-! ## Ids as whole numbers -/

theorem int64?_eq_some {v : Value} {n : Int} (h : v.int64? = some n) : v = .number (.int n) := by
  obtain ⟨hv, -⟩ := Option.filter_eq_some_iff.1 h
  cases v with
  | number x =>
    cases x with
    | int m => rw [Option.some.inj hv]
    | float x => nomatch hv
  | _ => nomatch hv

namespace Schema

variable {S : Schema}

/-- A whole number other than zero that an instance has as its id counts. -/
theorem countedId?_of_id? {i : Instance} {key : String} {id : Int} (h : i.id? key = some id)
    (h0 : id ≠ 0) : countedId? key i = some (.number (.int id)) := by
  obtain ⟨v, hv, hid⟩ := Option.bind_eq_some_iff.1 h
  obtain rfl := int64?_eq_some hid
  have hcounts : isIdle (.number (.int id)) = false := beq_eq_false_iff_ne.2 h0
  rw [countedId?, hv, Option.filter_some, hcounts]
  rfl

/-- If the texts of the ids that count are distinct, at most one instance has a given whole number
other than zero as its id. -/
theorem countP_id_le_one {is : List Instance} {key : String}
    (h : ((is.filterMap (countedId? key)).map Value.text).Nodup) {id : Int} (h0 : id ≠ 0) :
    is.countP (fun i => i.id? key == some id) ≤ 1 := by
  set own := is.filter fun i => i.id? key == some id
  have hsame : own.filterMap (countedId? key) = own.map fun _ => .number (.int id) := by
    rw [← List.filterMap_eq_map]
    refine List.filterMap_congr fun i hi => ?_
    exact countedId?_of_id? (eq_of_beq (List.mem_filter.1 hi).2) h0
  have hsub : (own.filterMap (countedId? key)).Sublist (is.filterMap (countedId? key)) :=
    List.filter_sublist.filterMap _
  have hnodup := (hsub.map Value.text).nodup h
  rw [hsame, List.map_map, Function.comp_def, List.map_const', List.nodup_replicate] at hnodup
  rwa [List.countP_eq_length_filter]

/-- The ids of a kind that has unique ones are kept in a field that is asked to be unique. -/
theorem idKey_mem {kind : String} (h : kind ∈ Entries.keys S.idFields) :
    (kind, S.idKey kind) ∈ S.idFields := by
  obtain ⟨field, hf⟩ := Option.isSome_iff_exists.1 ((Entries.has_iff S.idFields kind).2 h)
  rw [idKey, hf]
  exact mem_of_lookup hf

/-! ## Accepted scripts -/

/-- **On whatever walk through an accepted script, a reference to a kind with unique ids is the id of
an instance, and of a single one unless it is zero.** -/
theorem single_instance_of_validate (d : Script) (r : Requirements) (hd : d.entries.Distinct)
    (h : S.validate d r = .ok ()) (focus : Focus) {f : Finding}
    (hf : f ∈ (S.findings focus d).seen) {kind : String} {info : Info}
    (hs : f.visit.spec = .terminal (.instanceId kind) info)
    (hk : kind ∈ Entries.keys S.idFields) :
    ∃ id is, f.visit.value.int64? = some id ∧ S.instances d kind = .ok is ∧
      0 < is.countP (fun i => i.id? (S.idKey kind) == some id) ∧
      (id ≠ 0 → is.countP (fun i => i.id? (S.idKey kind) == some id) = 1) := by
  have hfit : f.visit.Fits S d := by
    refine ((findings_fitOn h hd focus).2 f hf).resolve_right ?_
    rintro ⟨kind', info', hs', -⟩
    nomatch hs.symm.trans hs'
  obtain ⟨t, info', hs', ht⟩ := hfit
  obtain ⟨rfl, rfl⟩ := Spec.terminal.inj (hs.symm.trans hs')
  cases ht with
  | @instanceId _ _ id i hid hl =>
    obtain ⟨is, his, hfind⟩ := map_eq_ok_iff.1 hl
    have hown : (i.id? (S.idKey kind) == some id) = true :=
      List.find?_some (p := fun i : Instance => i.id? (S.idKey kind) == some id) hfind
    have hpos : 0 < is.countP fun i => i.id? (S.idKey kind) == some id :=
      List.countP_pos_iff.2 ⟨i, List.mem_of_find?_eq_some hfind, hown⟩
    refine ⟨id, is, hid, his, hpos, fun h0 => ?_⟩
    obtain ⟨is', his', hn⟩ := duplicateIdIssues_eq_nil_iff.1
      ((contentIssues_eq_nil_iff.1 (validate_eq_ok_iff.1 h).2).2 _ (idKey_mem hk))
    obtain rfl := Except.ok.inj (his.symm.trans his')
    have hle : is.countP (fun i => i.id? (S.idKey kind) == some id) ≤ 1 := countP_id_le_one hn h0
    omega

/-- The reference of the last cue of the first scene. -/
def afterFirst : Finding :=
  ⟨⟨"scenes", 0⟩, some "day", ⟨"cues[1].cues[0].after", .terminal (.instanceId "cue") .plain, false,
    .number (.int 1)⟩⟩

theorem single_instance_twoScenes :
    twoScenes.entries.Distinct ∧ scenes.validate twoScenes ⟨1, true⟩ = .ok () ∧
      afterFirst ∈ (scenes.findings .any twoScenes).seen ∧
      afterFirst.visit.spec = .terminal (.instanceId "cue") .plain ∧
      "cue" ∈ Entries.keys scenes.idFields ∧
      ∃ id is, afterFirst.visit.value.int64? = some id ∧ scenes.instances twoScenes "cue" = .ok is ∧
        0 < is.countP (fun i => i.id? (scenes.idKey "cue") == some id) ∧
        (id ≠ 0 → is.countP (fun i => i.id? (scenes.idKey "cue") == some id) = 1) := by
  have hd : twoScenes.entries.Distinct := by decide
  have hf : afterFirst ∈ (scenes.findings .any twoScenes).seen := by
    have hx : (scenes.findings .any twoScenes).seen[11]? = some afterFirst := by cbv
    exact List.mem_of_getElem? hx
  have hk : "cue" ∈ Entries.keys scenes.idFields := by decide
  exact ⟨hd, validate_twoScenes, hf, rfl, hk,
    single_instance_of_validate twoScenes ⟨1, true⟩ hd validate_twoScenes .any hf rfl hk⟩

/-- A scene with two cues whose id is zero, and one that follows a cue with this id. -/
def zeroTwice : Script :=
  ⟨[("meta", .object [("version", .number (.int 1))]),
    ("scenes", .array [
      .object [("name", .string "day"),
        ("cues", .array [
          .object [("type", .string "line"), ("id", .number (.int 0))],
          .object [("type", .string "line"), ("id", .number (.int 0)),
            ("after", .number (.int 0))]])]])]⟩

theorem validate_zeroTwice : scenes.validate zeroTwice ⟨1, true⟩ = .ok () := by
  have hm : scenes.memberIssues zeroTwice "scenes" [] (zeroTwice.collection "scenes") = .ok [] := by
    cbv
  have hi : scenes.duplicateIdIssues zeroTwice "cue" "id" = .ok [] := by cbv
  exact validate_scenes (by cbv) (by cbv) (by cbv) hm hi

/-- The reference of the second cue. -/
def afterZero : Finding :=
  ⟨⟨"scenes", 0⟩, some "day", ⟨"cues[1].after", .terminal (.instanceId "cue") .plain, false,
    .number (.int 0)⟩⟩

/-- Zero does not count where ids have to be unique, and a reference may hold it all the same. -/
theorem not_single_instance :
    ¬ ∀ (S : Schema) (d : Script) (r : Requirements), S.check = .ok () → d.entries.Distinct →
      S.validate d r = .ok () → ∀ f ∈ (S.findings .any d).seen, ∀ kind info,
        f.visit.spec = .terminal (.instanceId kind) info → kind ∈ Entries.keys S.idFields →
        ∃ id is, f.visit.value.int64? = some id ∧ S.instances d kind = .ok is ∧
          is.countP (fun i => i.id? (S.idKey kind) == some id) = 1 := by
  intro h
  have hf : (scenes.findings .any zeroTwice).seen[7]? = some afterZero := by cbv
  have hi : (scenes.instances zeroTwice "cue").map
      (List.countP fun i => i.id? (scenes.idKey "cue") == some 0) = .ok 2 := by cbv
  obtain ⟨id, is, hid, his, hone⟩ := h scenes zeroTwice ⟨1, true⟩ rfl (by decide)
    validate_zeroTwice afterZero (List.mem_of_getElem? hf) "cue" .plain rfl (by decide)
  obtain rfl : 0 = id := Option.some.inj hid
  rw [his, Except.map, hone] at hi
  exact absurd (Except.ok.inj hi) (by decide)

end Schema

end ScriptSchema
