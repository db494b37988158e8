import ScriptSchema.Proofs.Instances
import ScriptSchema.Proofs.Repeats
import ScriptSchema.Proofs.Transfer

/-!
# The order of a script does not matter

The first resource of a name and the first instance of an id are the ones that are found, and names
and ids are reported from their second occurrence on. All of this depends on the order of entries
and resources. The verdict on a script does not, and a report only as to which resource is blamed
for an id.

* `Script.Reordered`: the same script in another order;
* `Reordered.get?`, `Reordered.defines`, `Reordered.names`: what is found in it;
* `haul_sights`, `haul_ids`: the walks through it, and the ids of its instances;
* `toOption_resourceIssues`, `haul_collectionIssues`: its problems;
* `Schema.Reports`: a report, in two parts;
* **`validate_reordered`**: the verdict, and the reports.
-/

namespace ScriptSchema

/-! ## The same in another order -/

/-- The same entry of a script, with its resources in another order if it is a collection. -/
inductive ReorderedEntry : String × Value → String × Value → Prop
  | same (entry : String × Value) : ReorderedEntry entry entry
  | collection {name : String} {vs ws : List Value} : name ≠ Script.metaKey → vs.Perm ws →
    ReorderedEntry (name, .array vs) (name, .array ws)

/-- The same script with its entries in another order, and the resources within its collections. -/
def Script.Reordered (d e : Script) : Prop :=
  ∃ es, d.entries.Perm es ∧ List.Forall₂ ReorderedEntry es e.entries

theorem ReorderedEntry.fst_eq {x y : String × Value} (h : ReorderedEntry x y) : x.1 = y.1 := by
  cases h <;> rfl

theorem Entries.lookup_eq_of_perm {α : Type} {es fs : Entries α} (hd : es.Distinct)
    (h : es.Perm fs) (key : String) : es.lookup key = fs.lookup key := by
  have hf : Entries.Distinct fs := (h.map Prod.fst).nodup_iff.1 hd
  rcases he : es.lookup key with _ | a
  · rcases hf' : fs.lookup key with _ | b
    · rfl
    · have hb := hd.lookup_eq (h.mem_iff.2 (mem_of_lookup hf'))
      nomatch he.symm.trans hb
  · exact (hf.lookup_eq (h.mem_iff.1 (mem_of_lookup he))).symm

theorem lookup_forall₂ {es fs : Entries Value} (h : List.Forall₂ ReorderedEntry es fs)
    (key : String) :
    Option.Rel (fun v w => ReorderedEntry (key, v) (key, w)) (es.lookup key) (fs.lookup key) := by
  induction h with
  | nil => exact .none
  | @cons x y es fs hx _ ih =>
    obtain ⟨k, v⟩ := x
    obtain ⟨k', w⟩ := y
    obtain rfl : k = k' := hx.fst_eq
    by_cases hk : key = k
    · subst hk
      rw [List.lookup_cons_self, List.lookup_cons_self]
      exact .some hx
    · rw [List.lookup_cons, List.lookup_cons, beq_eq_false_iff_ne.2 hk]
      exact ih

namespace Script.Reordered

variable {d e : Script}

theorem keys (h : d.Reordered e) : d.entries.keys.Perm e.entries.keys := by
  obtain ⟨es, hp, hf⟩ := h
  have hkeys : Entries.keys es = e.entries.keys := by
    rw [← List.forall₂_eq_eq_eq, Entries.keys, Entries.keys, List.forall₂_map_left_iff,
      List.forall₂_map_right_iff]
    exact hf.imp fun _ _ hx => hx.fst_eq
  exact hkeys ▸ hp.map Prod.fst

theorem distinct (h : d.Reordered e) (hd : d.entries.Distinct) : e.entries.Distinct :=
  h.keys.nodup_iff.1 hd

theorem names (h : d.Reordered e) : d.names.Perm e.names := h.keys.filter _

theorem get? (h : d.Reordered e) (hd : d.entries.Distinct) (key : String) :
    Option.Rel (fun v w => ReorderedEntry (key, v) (key, w)) (d.get? key) (e.get? key) := by
  obtain ⟨es, hp, hf⟩ := h
  rw [Script.get?, Script.get?, Entries.lookup_eq_of_perm hd hp]
  exact lookup_forall₂ hf key

theorem get?_metaKey (h : d.Reordered e) (hd : d.entries.Distinct) :
    d.get? metaKey = e.get? metaKey := by
  have hx := h.get? hd metaKey
  generalize d.get? metaKey = v at hx
  generalize e.get? metaKey = w at hx
  cases hx with
  | none => rfl
  | some hx =>
    cases hx with
    | same => rfl
    | collection hm => exact absurd rfl hm

theorem array? (h : d.Reordered e) (hd : d.entries.Distinct) (name : String) :
    Option.Rel List.Perm (d.array? name) (e.array? name) := by
  have hx := h.get? hd name
  rw [Script.array?, Script.array?]
  generalize d.get? name = v at hx
  generalize e.get? name = w at hx
  cases hx with
  | none => exact .none
  | @some v w hx =>
    cases hx with
    | same =>
      rw [Option.bind_some]
      rcases v.array? with _ | vs
      · exact .none
      · exact .some (.refl vs)
    | collection _ hp => exact .some hp

theorem collection (h : d.Reordered e) (hd : d.entries.Distinct) (name : String) :
    (d.collection name).Perm (e.collection name) := by
  have hx := h.array? hd name
  rw [Script.collection, Script.collection]
  generalize d.array? name = vs at hx
  generalize e.array? name = ws at hx
  cases hx with
  | none => exact .refl _
  | some hp => exact hp

/-- The same names are defined, though not by the same resources first. -/
theorem defines (h : d.Reordered e) (hd : d.entries.Distinct) (collection name : String) :
    d.defines collection name = e.defines collection name := by
  rw [Bool.eq_iff_iff, defines_iff, defines_iff]
  simp only [(h.collection hd collection).mem_iff]

end Script.Reordered

namespace Schema

variable {S : Schema} {d e : Script}

/-! ## Walks and instances -/

theorem haul_entrySights {x y : String × Value} (h : ReorderedEntry x y) (focus : Focus) :
    Search.haul (S.entrySights focus x) = Search.haul (S.entrySights focus y) := by
  cases h with
  | same => rfl
  | @collection name vs ws hm hp =>
    rcases hc : S.resourceFor? name with _ | ⟨type, c⟩
    · rw [entrySights, entrySights, map_entryFindings, map_entryFindings, hc]
    · rw [entrySights_array focus hm hc, entrySights_array focus hm hc]
      exact Search.haul_gather_perm (hp.map _)

/-- A walk through the script in another order visits the same. -/
theorem haul_sights (h : d.Reordered e) (focus : Focus) :
    Search.haul (S.sights focus d) = Search.haul (S.sights focus e) := by
  obtain ⟨es, hp, hf⟩ := h
  rw [sights_eq, sights_eq]
  calc Search.haul (Search.gather (d.entries.map (S.entrySights focus)))
      = Search.haul (Search.gather (es.map (S.entrySights focus))) :=
        Search.haul_gather_perm (hp.map _)
    _ = Search.haul (Search.gather (e.entries.map (S.entrySights focus))) := by
        refine Search.haul_gather_forall₂ ?_
        rw [List.forall₂_map_left_iff, List.forall₂_map_right_iff]
        exact hf.imp fun _ _ hx => haul_entrySights hx focus

theorem haul_ids (h : d.Reordered e) (hd : d.entries.Distinct) (kind : String) :
    Search.haul (S.ids d kind) = Search.haul (S.ids e kind) :=
  haul_instances hd (h.distinct hd) (haul_sights h (.component kind)) fun v =>
    (v.entry? (S.idKey kind)).bind Value.int64?

/-! ## Problems -/

/-- Terminal values have the same problems in the script in another order. -/
theorem toOption_terminalProblems (h : d.Reordered e) (hd : d.entries.Distinct) (name : String)
    (t : Terminal) (required : Bool) (v : Value) :
    (S.terminalProblems d name t required v).toOption =
      (S.terminalProblems e name t required v).toOption := by
  cases t with
  | scalar format => rfl
  | enum options => rfl
  | reference collection special nullable =>
    simp only [terminalProblems, referenceProblems, h.defines hd]
  | instanceId kind =>
    rw [terminalProblems, terminalProblems]
    rcases hv : v.int64? with _ | id
    · rw [instanceProblems, instanceProblems, hv]
    · rw [instanceProblems_eq name kind hv, instanceProblems_eq name kind hv]
      refine Search.toOption_map_of_haul_eq (fun ids ids' hp => ?_) (haul_ids h hd kind)
      rw [hp.contains_eq]

theorem toOption_resourceIssues (hS : S.Hookless) (h : d.Reordered e) (hd : d.entries.Distinct)
    (collection : String) (v : Value) :
    (S.resourceIssues d collection v).toOption = (S.resourceIssues e collection v).toOption := by
  rcases hc : S.resourceFor? collection with _ | ⟨type, c⟩
  · rw [resourceIssues, resourceIssues, hc]
  · have hx := classProblems_transfer Search.compatible_toOption hS
      (toOption_terminalProblems h hd) "" (S.describes_of_resourceFor hc) v
    rw [resourceIssues_eq hc, resourceIssues_eq hc, Search.toOption_map, Search.toOption_map, hx]

theorem haul_collectionIssues (hS : S.Hookless) (h : d.Reordered e) (hd : d.entries.Distinct)
    (refuseUnknown : Bool) (name : String) :
    Search.haul (S.collectionIssues d refuseUnknown name) =
      Search.haul (S.collectionIssues e refuseUnknown name) := by
  have hx := h.array? hd name
  rw [collectionIssues, collectionIssues]
  generalize d.array? name = vs at hx
  generalize e.array? name = ws at hx
  cases hx with
  | none => rfl
  | @some vs ws hp =>
    have hnames : ((repeats id [] (vs.filterMap nameOf?)).map (duplicateName name)).Perm
        ((repeats id [] (ws.filterMap nameOf?)).map (duplicateName name)) :=
      map_repeats_perm (fun _ _ => congrArg (duplicateName name)) (hp.filterMap nameOf?) []
    have hown : Search.haul (Search.gather (vs.map (S.resourceIssues d name))) =
        Search.haul (Search.gather (ws.map (S.resourceIssues e name))) :=
      calc Search.haul (Search.gather (vs.map (S.resourceIssues d name)))
          = Search.haul (Search.gather (ws.map (S.resourceIssues d name))) :=
            Search.haul_gather_perm (hp.map _)
        _ = Search.haul (Search.gather (ws.map (S.resourceIssues e name))) :=
            Search.haul_gather_congr fun v _ =>
              Search.haul_eq_of_toOption_eq (toOption_resourceIssues hS h hd name v)
    dsimp only
    split
    · rw [hp.isEmpty_eq]
    · rw [haul_memberIssues, haul_memberIssues, Search.haul_both, Search.haul_both, hown]
      exact congrArg (Option.map₂ _ · _) (congrArg some (Multiset.coe_eq_coe.2 hnames))

/-! ## Verdicts and reports -/

variable (S d) in
/-- What is wrong with the collections. -/
def issuesOfCollections (refuseUnknown : Bool) : Search Issue :=
  Search.gather (d.names.map (S.collectionIssues d refuseUnknown))

variable (S d) in
/-- What is wrong with the ids that have to be unique. -/
def issuesOfIds : Search Issue :=
  Search.gather (S.idFields.map fun f => S.duplicateIdIssues d f.1 f.2)

variable (S d) in
/-- The script is refused with this report, which has the issues of its collections, and then those
of its ids. -/
structure Reports (r : Requirements) (report : Report) (own ids : List Issue) : Prop where
  refused : S.validate d r = .error (.invalid report)
  ofCollections : S.issuesOfCollections d r.refuseUnknown = .ok own
  ofIds : S.issuesOfIds d = .ok ids
  issues : report.issues = own ++ ids

theorem haul_issuesOfCollections (hS : S.Hookless) (h : d.Reordered e) (hd : d.entries.Distinct)
    (refuseUnknown : Bool) :
    Search.haul (S.issuesOfCollections d refuseUnknown) =
      Search.haul (S.issuesOfCollections e refuseUnknown) :=
  calc Search.haul (S.issuesOfCollections d refuseUnknown)
      = Search.haul (Search.gather (d.names.map (S.collectionIssues e refuseUnknown))) :=
        Search.haul_gather_congr fun name _ => haul_collectionIssues hS h hd refuseUnknown name
    _ = Search.haul (S.issuesOfCollections e refuseUnknown) :=
        Search.haul_gather_perm (h.names.map _)

/-- The messages about ids are the same, though they may be about other resources. -/
theorem haul_issuesOfIds (h : d.Reordered e) (hd : d.entries.Distinct) :
    Search.haul ((S.issuesOfIds d).map (List.map Issue.message)) =
      Search.haul ((S.issuesOfIds e).map (List.map Issue.message)) := by
  rw [issuesOfIds, issuesOfIds, Search.map_gather, Search.map_gather, List.map_map, List.map_map]
  refine Search.haul_gather_congr fun f _ => haul_duplicateIdMessages ?_
  exact haul_instances hd (h.distinct hd) (haul_sights h (.component f.1)) fun v =>
    (v.entry? f.2).filter (!isIdle ·)

theorem contentIssues_eq_ok_iff {refuseUnknown : Bool} {issues : List Issue} :
    S.contentIssues d refuseUnknown = .ok issues ↔
      ∃ own ids, S.issuesOfCollections d refuseUnknown = .ok own ∧ S.issuesOfIds d = .ok ids ∧
        issues = own ++ ids := by
  rw [contentIssues_eq, ← issuesOfCollections, ← issuesOfIds, Search.both_eq_ok_iff]

/-- With a valid `meta` block, the script is refused for what is wrong outside of it. -/
theorem validate_eq_invalid_iff {r : Requirements} {report : Report}
    (hm : metaIssues r.version (d.get? Script.metaKey) = []) :
    S.validate d r = .error (.invalid report) ↔
      ∃ issues, S.contentIssues d r.refuseUnknown = .ok issues ∧ issues ≠ [] ∧
        report = .ofIssues issues := by
  rw [validate, hm]
  rcases S.contentIssues d r.refuseUnknown with f | issues
  · simp
  · rcases issues with _ | ⟨i, is⟩ <;> simp [eq_comm]

/-- With a valid `meta` block, a report has these two parts. -/
theorem reports_iff {r : Requirements} {report : Report} {own ids : List Issue}
    (hm : metaIssues r.version (d.get? Script.metaKey) = []) :
    S.Reports d r report own ids ↔
      S.issuesOfCollections d r.refuseUnknown = .ok own ∧ S.issuesOfIds d = .ok ids ∧
        own ++ ids ≠ [] ∧ report = .ofIssues (own ++ ids) := by
  constructor
  · intro h
    obtain ⟨issues, hc, hne, rfl⟩ := (validate_eq_invalid_iff hm).1 h.refused
    obtain rfl : issues = own ++ ids := h.issues
    exact ⟨h.ofCollections, h.ofIds, hne, rfl⟩
  · rintro ⟨ho, hi, hne, rfl⟩
    have hc := contentIssues_eq_ok_iff.2 ⟨own, ids, ho, hi, rfl⟩
    exact ⟨(validate_eq_invalid_iff hm).2 ⟨_, hc, hne, rfl⟩, ho, hi, rfl⟩

/-- **The verdict on a script does not depend on its order.** If the `meta` block is valid and the
script is refused, the reports have the same issues, as often, except that those about repeated ids
may be about other resources. -/
theorem validate_reordered (hS : S.Hookless) (d e : Script) (r : Requirements)
    (hd : d.entries.Distinct) (h : d.Reordered e) :
    (S.validate d r = .ok () ↔ S.validate e r = .ok ()) ∧
    (metaIssues r.version (d.get? Script.metaKey) = [] →
      ∀ report, S.validate d r = .error (.invalid report) →
        ∃ report' own ids own' ids', S.Reports d r report own ids ∧
          S.Reports e r report' own' ids' ∧ report.issues.length = report'.issues.length ∧
          own.Perm own' ∧ (ids.map Issue.message).Perm (ids'.map Issue.message)) := by
  have hown := haul_issuesOfCollections hS h hd r.refuseUnknown
  have hids := haul_issuesOfIds (S := S) h hd
  have hmeta := h.get?_metaKey hd
  constructor
  · have hids' : S.issuesOfIds d = .ok [] ↔ S.issuesOfIds e = .ok [] := by
      rw [← Search.map_eq_nil_iff Issue.message, Search.eq_nil_iff_of_haul_eq hids,
        Search.map_eq_nil_iff]
    rw [validate_eq_ok_iff, validate_eq_ok_iff, contentIssues_eq, contentIssues_eq,
      ← issuesOfCollections, ← issuesOfIds, ← issuesOfCollections, ← issuesOfIds,
      Search.both_eq_nil_iff, Search.both_eq_nil_iff, hmeta, Search.eq_nil_iff_of_haul_eq hown,
      hids']
  · intro hm report hr
    obtain ⟨issues, hc, hne, rfl⟩ := (validate_eq_invalid_iff hm).1 hr
    obtain ⟨own, ids, ho, hi, rfl⟩ := contentIssues_eq_ok_iff.1 hc
    obtain ⟨own', ho', hpo⟩ := Search.perm_of_haul_eq hown ho
    obtain ⟨messages, hmessages, hpi⟩ := Search.perm_of_haul_eq hids (congrArg (Except.map _) hi)
    obtain ⟨ids', hi', rfl⟩ := map_eq_ok_iff.1 hmessages
    have hlen : (own ++ ids).length = (own' ++ ids').length := by
      have hlo := hpo.length_eq
      have hli := hpi.length_eq
      rw [List.length_map, List.length_map] at hli
      rw [List.length_append, List.length_append, hlo, hli]
    have hne' : own' ++ ids' ≠ [] := by
      rw [← List.length_pos_iff, ← hlen]
      exact List.length_pos_iff.2 hne
    exact ⟨_, own, ids, own', ids', (reports_iff hm).2 ⟨ho, hi, hne, rfl⟩,
      (reports_iff (hmeta ▸ hm)).2 ⟨ho', hi', hne', rfl⟩, hlen, hpo, hpi⟩

/-- Two scenes with a cue each, which have the same id. -/
def sharedId : Script :=
  ⟨[("meta", .object [("version", .number (.int 1))]),
    ("scenes", .array [
      .object [("name", .string "day"),
        ("cues", .array [.object [("type", .string "line"), ("id", .number (.int 1))]])],
      .object [("name", .string "eve"),
        ("cues", .array [.object [("type", .string "line"), ("id", .number (.int 1))]])]])]⟩

/-- The same in another order, in which the other scene is to blame. -/
def sharedIdReordered : Script :=
  ⟨[("scenes", .array (sharedId.collection "scenes").reverse),
    ("meta", .object [("version", .number (.int 1))])]⟩

theorem refused_sharedId :
    ∃ report, scenes.validate sharedId ⟨1, true⟩ = .error (.invalid report) ∧
      report.issues.length = 1 := by
  have ha : sharedId.array? "scenes" = some (sharedId.collection "scenes") := by cbv
  have hv : scenes.memberIssues sharedId "scenes" [] (sharedId.collection "scenes") = .ok [] := by
    cbv
  have hn : sharedId.names = ["scenes"] := by cbv
  have ho : scenes.issuesOfCollections sharedId true = .ok [] := by
    refine Search.gather_eq_nil_iff.2 (List.forall_mem_map.2 ?_)
    rw [hn, List.forall_mem_singleton]
    exact collectionIssues_scenes ha hv
  have hlen : (scenes.duplicateIdIssues sharedId "cue" "id").map List.length = .ok 1 := by cbv
  obtain ⟨ids, hi, hlen⟩ := map_eq_ok_iff.1 hlen
  have hi : scenes.issuesOfIds sharedId = .ok (ids ++ []) :=
    Search.both_eq_ok_iff.2 ⟨ids, [], hi, rfl, rfl⟩
  rw [List.append_nil] at hi
  have hc := contentIssues_eq_ok_iff.2 ⟨[], ids, ho, hi, rfl⟩
  have hne : [] ++ ids ≠ [] := List.length_pos_iff.1 (hlen ▸ Nat.one_pos)
  exact ⟨_, (validate_eq_invalid_iff (by cbv)).2 ⟨_, hc, hne, rfl⟩, hlen⟩

theorem validate_reordered_sharedId :
    scenes.Hookless ∧ sharedId.entries.Distinct ∧ sharedId.Reordered sharedIdReordered ∧
      metaIssues 1 (sharedId.get? Script.metaKey) = [] ∧
      (scenes.validate sharedId ⟨1, true⟩ = .ok () ↔
        scenes.validate sharedIdReordered ⟨1, true⟩ = .ok ()) ∧
      ∃ report, scenes.validate sharedId ⟨1, true⟩ = .error (.invalid report) ∧
        report.issues.length = 1 ∧
        ∃ report' own ids own' ids', scenes.Reports sharedId ⟨1, true⟩ report own ids ∧
          scenes.Reports sharedIdReordered ⟨1, true⟩ report' own' ids' ∧
          report.issues.length = report'.issues.length ∧
          own.Perm own' ∧ (ids.map Issue.message).Perm (ids'.map Issue.message) := by
  have hd : sharedId.entries.Distinct := by decide
  have h : sharedId.Reordered sharedIdReordered := by
    refine ⟨sharedId.entries.reverse, (List.reverse_perm _).symm, .cons ?_ (.cons (.same _) .nil)⟩
    exact .collection (by decide) (List.reverse_perm _).symm
  have hm : metaIssues 1 (sharedId.get? Script.metaKey) = [] := by cbv
  have hx := validate_reordered hookless_scenes sharedId sharedIdReordered ⟨1, true⟩ hd h
  obtain ⟨report, hr, hlen⟩ := refused_sharedId
  exact ⟨hookless_scenes, hd, h, hm, hx.1, report, hr, hlen, hx.2 hm report hr⟩

end Schema

end ScriptSchema
