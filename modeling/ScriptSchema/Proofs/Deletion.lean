import ScriptSchema.Proofs.Instances
import ScriptSchema.Proofs.Reach

/-!
# Deleting a resource that nobody refers to

A script without one of its resources is as good as before, if no reference to that resource is
left. Which resources refer to it is known from a walk, but validation reaches parts of a value that
a walk does not, and a reference there goes unnoticed: it keeps the script without the resource from
being accepted.

* `Script.without`: a script without a resource;
* `array?_without`, `defines_without`: what is left;
* `findings_without`, `duplicateIdIssues_without`: the walk through what is left, and its ids;
* `not_refersTo_of_referrers`: what it means that nobody refers to a resource;
* **`validate_without_iff`**: when the script without the resource is accepted.
-/

namespace ScriptSchema

/-! ## A script without a resource -/

namespace Script

variable (d : Script) (collection name : String)

/-- The script without the resources of a collection that have this name. -/
def without : Script :=
  match d.array? collection with
  | none => d
  | some vs => d.put collection (.array (vs.filter fun v => nameOf? v != some name))

theorem get?_without {key : String} (h : key ≠ collection) :
    (d.without collection name).get? key = d.get? key := by
  unfold without
  split
  · rfl
  · rw [get?_put, if_neg h]

theorem array?_without (key : String) :
    (d.without collection name).array? key =
      if key = collection then
        (d.array? key).map (List.filter fun v => nameOf? v != some name)
      else d.array? key := by
  split
  · rename_i hk
    subst hk
    unfold without
    split
    · rename_i ha
      rw [ha]
      rfl
    · rename_i vs ha
      rw [ha, array?, get?_put, if_pos rfl]
      rfl
  · rename_i hk
    rw [array?, array?, get?_without d collection name hk]

theorem array?_without_sublist {key : String} {vs : List Value} (h : d.array? key = some vs) :
    ∃ vs', (d.without collection name).array? key = some vs' ∧ vs'.Sublist vs := by
  rw [array?_without, h]
  split
  · exact ⟨_, rfl, List.filter_sublist⟩
  · exact ⟨vs, rfl, List.Sublist.refl vs⟩

/-- The entries are the same but for one, which has lost some of its resources. -/
theorem without_cases :
    d.without collection name = d ∨ ∃ vs before after,
      d.entries = before ++ (collection, .array vs) :: after ∧
      (d.without collection name).entries = before ++
        (collection, .array (vs.filter fun v => nameOf? v != some name)) :: after := by
  unfold without
  split
  · exact .inl rfl
  · rename_i vs ha
    obtain ⟨v, hv, hvs⟩ := Option.bind_eq_some_iff.1 ha
    obtain rfl := array_of_array? hvs
    obtain ⟨before, after, he, hp⟩ := Entries.put_eq hv
      (.array (vs.filter fun v => nameOf? v != some name))
    exact .inr ⟨vs, before, after, he, hp⟩

theorem keys_without : (d.without collection name).entries.keys = d.entries.keys := by
  obtain h | ⟨vs, before, after, h, h'⟩ := d.without_cases collection name
  · rw [h]
  · rw [h, h', Entries.keys, Entries.keys, List.map_append, List.map_append]
    rfl

theorem names_without : (d.without collection name).names = d.names := by
  rw [names, keys_without, names]

/-- **The resource is not there any more, and all others are.** -/
theorem defines_without (c n : String) :
    (d.without collection name).defines c n = true ↔
      d.defines c n = true ∧ (c = collection → n ≠ name) := by
  rw [defines_iff, defines_iff, Script.collection, array?_without, Script.collection]
  by_cases hc : c = collection
  · subst hc
    rcases d.array? c with _ | vs
    · simp
    · simp only [if_true, Option.map_some, Option.getD_some, List.mem_filter, bne_iff_ne,
        forall_const]
      constructor
      · rintro ⟨r, ⟨hr, hne⟩, hn⟩
        refine ⟨⟨r, hr, hn⟩, ?_⟩
        rintro rfl
        exact hne hn
      · rintro ⟨⟨r, hr, hn⟩, hne⟩
        refine ⟨r, ⟨hr, fun h => ?_⟩, hn⟩
        exact hne (Option.some.inj (hn.symm.trans h))
  · simp only [hc, if_false, false_implies, and_true]

end Script

namespace Schema

variable {S : Schema} {d : Script} {collection name : String}

/-! ## Walks through what is left -/

/-- A walk through what is left sees some of what it saw before. -/
theorem findings_without (focus : Focus) :
    ((S.findings focus (d.without collection name)).map Finding.visit).Within
      ((S.findings focus d).map Finding.visit) := by
  obtain h | ⟨vs, before, after, h, h'⟩ := d.without_cases collection name
  · rw [h]
    exact .refl _
  · rw [findings, findings, h, h', Trace.map_each, Trace.map_each, Trace.each_append,
      Trace.each_append, Trace.each, Trace.each]
    refine (Trace.Within.refl _).append (Trace.Within.append ?_ (.refl _))
    rw [map_entryFindings, map_entryFindings]
    split
    · exact .refl _
    · split
      · exact .refl _
      · exact .each _ List.filter_sublist

/-! ## Ids of what is left -/

/-- Ids that are unique stay so. -/
theorem duplicateIdIssues_without (hd : d.entries.Distinct) {kind field : String}
    (h : S.duplicateIdIssues d kind field = .ok []) :
    S.duplicateIdIssues (d.without collection name) kind field = .ok [] := by
  obtain ⟨is, hi, hn⟩ := duplicateIdIssues_eq_nil_iff.1 h
  obtain ⟨hk, he, -⟩ := instances_eq_ok_iff.1 hi
  obtain ⟨he', hs⟩ := findings_without (.component kind) he
  have hi' := instances_eq_ok_iff.2 ⟨hk, he', rfl⟩
  have hd' : (d.without collection name).entries.Distinct := by
    rw [Entries.Distinct, d.keys_without]
    exact hd
  refine duplicateIdIssues_eq_nil_iff.2 ⟨_, hi', ?_⟩
  rw [filterMap_countedId? hd hi] at hn
  rw [filterMap_countedId? hd' hi']
  exact ((hs.filterMap _).map _).nodup hn

/-! ## References -/

/-- If nobody refers to a resource, no reference to it is visited. -/
theorem named_of_referrers (hd : d.entries.Distinct)
    (he : (S.findings .reference d).error = none)
    (h : S.referrers d collection name = .ok []) :
    (S.findings .reference d).Holds fun f => f.visit.named? ≠ some (collection, name) := by
  refine ⟨he, fun f hf hn => ?_⟩
  rw [referrers, references_eq he] at h
  have hx : f.reference? = some ⟨f.place, f.owner, f.visit.path, collection, name⟩ := by
    rw [Finding.reference?, hn]
    rfl
  have hp : f.place ∈ ((((S.findings .reference d).seen.filterMap Finding.reference?).filter
      fun r => r.collection == collection && r.name == name).map Reference.origin) :=
    List.mem_map.2 ⟨_, List.mem_filter.2 ⟨List.mem_filterMap.2 ⟨f, hf, hx⟩, by simp⟩, rfl⟩
  have hnone := List.filterMap_eq_nil_iff.1 (Except.ok.inj h) f.place (List.mem_eraseDups.2 hp)
  obtain ⟨resource, ha⟩ := Option.isSome_iff_exists.1 ((resourceAt?_findings hd he).2 f hf)
  rw [ha] at hnone
  nomatch hnone

/-- If nobody refers to a resource, the walk reaches no reference to it. -/
theorem not_refersTo_of_referrers {r : Requirements} (h : S.validate d r = .ok ())
    (hd : d.entries.Distinct) (hr : S.referrers d collection name = .ok []) {key type : String}
    {c : Class} {vs : List Value} (ha : d.array? key = some vs)
    (hc : S.resourceFor? key = some (type, c)) {v : Value} (hv : v ∈ vs) :
    ¬ S.RefersTo true (.object c.fields .plain) v collection name := by
  intro href
  have hx := classProblems_of_validate h ha hc v hv
  have hcf := ((classProblems_eq_nil_iff ⟨[], hx⟩).1 hx).fields
  have hne : name ≠ "" := (hcf.refersTo href).1.ne_empty
  obtain ⟨special, nullable, info, hreach, hs⟩ := href
  have hvisits : (S.fieldVisits .reference "" c.fields v).Holds
      fun visit => visit.named? ≠ some (collection, name) := by
    obtain ⟨value, hvalue, hvs⟩ := Option.bind_eq_some_iff.1 ha
    obtain rfl := array_of_array? hvs
    obtain ⟨i, hi⟩ := List.getElem?_of_mem hv
    have hm := bne_iff_ne.1 (List.mem_filter.1 (mem_names_of_array? h ha)).2
    have hw := named_of_referrers hd (findings_fit h hd .reference fun _ => rfl).1 hr
    exact holds_findings_iff.1 hw key vs (mem_of_lookup hvalue) hm type c hc (v, i)
      (List.mk_mem_zipIdx_iff_getElem?.2 hi)
  rw [fieldVisits, ← visitsWhile_object S .reference [] "" c.fields .plain] at hvisits
  obtain ⟨path, onKey, hn⟩ := holds_of_reaches hreach rfl rfl [] "" hvisits
  refine hn ?_
  have hspecial : ¬ (name = "" ∨ special.any (·.value == name) = true) := by simp [hne, hs]
  exact if_neg hspecial

/-! ## Validation of what is left -/

/-- A resource that does not refer to the deleted one has no problems without it either. -/
theorem classProblems_without (hS : S.SelfContained) {c : Class} (hc : S.Describes c) {v : Value}
    (hno : ∀ b, ¬ S.RefersTo b (.object c.fields .plain) v collection name)
    (h : S.classProblems d "" c v = .ok []) :
    S.classProblems (d.without collection name) "" c v = .ok [] := by
  have hdef (key n : String) (hd : d.defines key n = true) (hne : key = collection → n ≠ name) :
      (d.without collection name).defines key n = true :=
    (d.defines_without collection name key n).2 ⟨hd, hne⟩
  rw [classProblems_eq, Search.both_eq_nil_iff] at h ⊢
  have hp := (problems_carry hS hdef).fieldsOf [] c.fields v (hS.ids c hc) .plain hno "" h.1
  rw [hS.hook c hc]
  exact ⟨hp, rfl⟩

theorem collectionIssues_without (hS : S.SelfContained) {refuseUnknown : Bool} {key : String}
    (hno : ∀ type c, S.resourceFor? key = some (type, c) →
      ∀ v ∈ (d.without collection name).collection key, v ∈ d.collection key →
        ∀ b, ¬ S.RefersTo b (.object c.fields .plain) v collection name)
    (h : S.collectionIssues d refuseUnknown key = .ok []) :
    S.collectionIssues (d.without collection name) refuseUnknown key = .ok [] := by
  obtain ⟨vs, ha, hx⟩ := collectionIssues_eq_nil_iff.1 h
  obtain ⟨vs', ha', hs⟩ := d.array?_without_sublist collection name ha
  refine collectionIssues_eq_nil_iff.2 ⟨vs', ha', ?_⟩
  rcases hc : S.resourceFor? key with _ | ⟨type, c⟩
  · rw [hc] at hx
    rcases hx with rfl | hx
    · exact .inl (List.sublist_nil.1 hs)
    · exact .inr hx
  · rw [hc] at hx
    refine ⟨(hs.filterMap _).nodup hx.1, fun v hv => ?_⟩
    have hleft : v ∈ (d.without collection name).collection key :=
      Script.mem_collection.2 ⟨vs', ha', hv⟩
    have hold : v ∈ d.collection key := Script.mem_collection.2 ⟨vs, ha, hs.subset hv⟩
    exact classProblems_without hS (S.describes_of_resourceFor hc) (hno type c hc v hleft hold)
      (hx.2 v (hs.subset hv))

/-- **The script without a resource that nobody refers to is accepted if and only if no reference to
the resource was overlooked.** -/
theorem validate_without_iff (hS : S.SelfContained) (d : Script) (r : Requirements)
    (collection name : String) (hd : d.entries.Distinct) (hm : collection ≠ Script.metaKey)
    (h : S.validate d r = .ok ()) (hr : S.referrers d collection name = .ok []) :
    S.validate (d.without collection name) r = .ok () ↔
      ∀ key type c, S.resourceFor? key = some (type, c) →
        ∀ v ∈ (d.without collection name).collection key,
          ¬ S.RefersTo false (.object c.fields .plain) v collection name := by
  constructor
  · intro h' key type c hc v hv href
    obtain ⟨vs, ha, hv⟩ := Script.mem_collection.1 hv
    have hx := classProblems_of_validate h' ha hc v hv
    have hcf := ((classProblems_eq_nil_iff ⟨[], hx⟩).1 hx).fields
    have hdef := (hcf.refersTo href).2
    exact ((d.defines_without collection name collection name).1 hdef).2 rfl rfl
  · intro hno
    obtain ⟨hmeta, hcontent⟩ := validate_eq_ok_iff.1 h
    obtain ⟨hnames, hids⟩ := contentIssues_eq_nil_iff.1 hcontent
    rw [validate_eq_ok_iff, contentIssues_eq_nil_iff, d.get?_without collection name hm.symm,
      d.names_without collection name]
    refine ⟨hmeta, fun key hkey => ?_, fun f hf => duplicateIdIssues_without hd (hids f hf)⟩
    refine collectionIssues_without hS (fun type c hc v hleft hold b => ?_) (hnames key hkey)
    obtain ⟨vs, ha, hv⟩ := Script.mem_collection.1 hold
    -- what the walk reaches is reported, and the rest is assumed away
    cases b with
    | true => exact not_refersTo_of_referrers h hd hr ha hc hv
    | false => exact hno key type c hc v hleft

/-! ### A reference that is overlooked -/

/-- The JSON type of a value, except that a boolean has none. -/
def jsonType : Value → Option String
  | .string _ => some "string"
  | .array _ => some "array"
  | .object _ => some "object"
  | .number _ => some "number"
  | .null => some "null"
  | .bool _ => none

/-- Whom a note is for: a role, by its name. -/
def recipient : Component where
  kind := "recipient"
  tagging := .byRule "type" jsonType
  shared := []
  variants := [("string", ⟨[("self", .terminal (.reference "roles" [] false) .plain)], none⟩)]
  key_ne := by decide
  variants_ne := by decide
  distinct := by decide

/-- Roles, and notes for them. -/
def notes : Schema :=
  ((empty.addResource "note" ⟨[("name", .terminal (.scalar .name) ⟨true, none⟩),
    ("to", .component "recipient" .plain)], none⟩).addResource "role"
      ⟨[("name", .terminal (.scalar .name) ⟨true, none⟩)], none⟩).addComponent recipient

/-- A note for one of two roles. -/
def oneNote : Script :=
  ⟨[("meta", .object [("version", .number (.int 1))]),
    ("roles", .array [.object [("name", .string "eve")], .object [("name", .string "ada")]]),
    ("notes", .array [.object [("name", .string "hi"), ("to", .string "eve")]])]⟩

theorem selfContained_notes : notes.SelfContained := by
  have hc (c) (h : notes.Describes c) : c.hook = none ∧
      Spec.EveryField (fun t => ∀ kind, t ≠ .instanceId kind) (fun _ => True) c.fields := by
    cases h with
    | resource h =>
      rcases List.mem_cons.1 h with h | h
      · cases h
        exact ⟨rfl, fun _ => nofun, trivial, trivial⟩
      · rcases List.mem_singleton.1 h with ⟨⟩
        exact ⟨rfl, fun _ => nofun, trivial⟩
    | variant h hv =>
      rcases List.mem_singleton.1 (mem_of_lookup h) with ⟨⟩
      obtain ⟨own, ho, rfl⟩ := Option.map_eq_some_iff.1 hv
      rcases List.mem_singleton.1 (mem_of_lookup ho) with ⟨⟩
      exact ⟨rfl, fun _ => nofun, trivial⟩
  exact ⟨fun c h => (hc c h).1, fun c h => (hc c h).2⟩

theorem validate_oneNote : notes.validate oneNote ⟨1, true⟩ = .ok () := by
  have har : oneNote.array? "roles" = some (oneNote.collection "roles") := by cbv
  have han : oneNote.array? "notes" = some (oneNote.collection "notes") := by cbv
  have hsr : (notes.resourceFor? "roles").isNone = false := by decide
  have hsn : (notes.resourceFor? "notes").isNone = false := by decide
  have hmr : notes.memberIssues oneNote "roles" [] (oneNote.collection "roles") = .ok [] := by cbv
  have hmn : notes.memberIssues oneNote "notes" [] (oneNote.collection "notes") = .ok [] := by cbv
  have hn : oneNote.names = ["roles", "notes"] := by cbv
  refine validate_eq_ok_iff.2 ⟨by cbv, contentIssues_eq_nil_iff.2 ⟨?_, ?_⟩⟩
  · rw [hn, List.forall_mem_cons, List.forall_mem_singleton, collectionIssues_eq har hsr,
      collectionIssues_eq han hsn]
    exact ⟨hmr, hmn⟩
  · exact List.forall_mem_nil _

theorem validate_without_iff_oneNote :
    oneNote.entries.Distinct ∧ "roles" ≠ Script.metaKey ∧
      notes.validate oneNote ⟨1, true⟩ = .ok () ∧ notes.referrers oneNote "roles" "ada" = .ok [] ∧
      (notes.validate (oneNote.without "roles" "ada") ⟨1, true⟩ = .ok () ↔
        ∀ key type c, notes.resourceFor? key = some (type, c) →
          ∀ v ∈ (oneNote.without "roles" "ada").collection key,
            ¬ notes.RefersTo false (.object c.fields .plain) v "roles" "ada") := by
  have hd : oneNote.entries.Distinct := by decide
  have hr : notes.referrers oneNote "roles" "ada" = .ok [] := by cbv
  exact ⟨hd, by decide, validate_oneNote, hr, validate_without_iff selfContained_notes oneNote
    ⟨1, true⟩ "roles" "ada" hd (by decide) validate_oneNote hr⟩

/-- The note is for a role by a name of its own, which validation looks up, and which no walk
visits. -/
theorem not_validate_without :
    ¬ ∀ (S : Schema) (d : Script) (r : Requirements) (collection name : String),
      S.check = .ok () → S.SelfContained → d.entries.Distinct → collection ≠ Script.metaKey →
      S.validate d r = .ok () → S.referrers d collection name = .ok [] →
      S.validate (d.without collection name) r = .ok () := by
  intro h
  have hv := h notes oneNote ⟨1, true⟩ "roles" "eve" rfl selfContained_notes (by decide)
    (by decide) validate_oneNote (by cbv)
  have hc : notes.resourceFor? "notes" = some ("note", ⟨[("name", .terminal (.scalar .name)
      ⟨true, none⟩), ("to", .component "recipient" .plain)], none⟩) := by cbv
  have ha : (oneNote.without "roles" "eve").array? "notes" =
      some [.object [("name", .string "hi"), ("to", .string "eve")]] := by cbv
  have hp := classProblems_of_validate hv ha hc _ List.mem_cons_self
  have hx : notes.classProblems (oneNote.without "roles" "eve") "" ⟨[("name", .terminal
      (.scalar .name) ⟨true, none⟩), ("to", .component "recipient" .plain)], none⟩
      (.object [("name", .string "hi"), ("to", .string "eve")]) =
        .ok [.unfit "Reference" "to" (.quoted "eve") (.inCollection "roles")] := by cbv
  simp [hx] at hp

end Schema

end ScriptSchema
