import ScriptSchema.Proofs.Referrers
import ScriptSchema.Proofs.Reordering
import ScriptSchema.Proofs.Wording

/-!
# Where repetitions are reported

A name that has occurred before in its collection is reported in front of what is wrong with the
resource itself, and an id that has occurred before is reported at the end, with the resource that
owns the later instance. Nothing else is reported as a repetition, so that of several resources with
one name all but the first are.

* `countP_repeats`: of members with one key all but the first are repeats;
* `Search.gather_eq_ok_iff`: what is found, block by block;
* `Schema.FlagsNames`, `flagsNames_of_memberIssues`: the issues of a collection;
* `Issue.repeatsName`, `filter_memberIssues`: those of them that are about names;
* `Schema.FlagsIds`, `flagsIds_of_duplicateIdIssues`: the issues about ids;
* `Schema.Flags`, `Schema.Verdict`, **`flags_of_validate`**: all issues of a script.
-/

namespace ScriptSchema

/-- Of the members with one key all but the first are repeats, or all if the key has been there
before. -/
theorem countP_repeats {α : Type} (key : α → String) (k : String) (before : List String)
    (as : List α) :
    (repeats key before as).countP (fun a => key a == k) =
      as.countP (fun a => key a == k) - if k ∈ before then 0 else 1 := by
  induction as generalizing before with
  | nil => simp [repeats]
  | cons a as ih =>
    rw [repeats, List.countP_append, ih, List.countP_cons]
    by_cases hk : key a = k
    · subst hk
      by_cases hb : key a ∈ before <;> simp [hb, Nat.add_comm]
    · have hcons : k ∈ key a :: before ↔ k ∈ before := by simp [Ne.symm hk]
      by_cases hb : key a ∈ before <;> simp [hb, hcons, hk]

/-- What some searches find, block by block. -/
theorem Search.gather_eq_ok_iff {α : Type} {xs : List (Search α)} {all : List α} :
    gather xs = .ok all ↔
      ∃ blocks, List.Forall₂ (fun x block => x = .ok block) xs blocks ∧ all = blocks.flatten := by
  induction xs generalizing all with
  | nil =>
    constructor
    · rintro ⟨⟩
      exact ⟨[], .nil, rfl⟩
    · rintro ⟨_, ⟨⟩, rfl⟩
      rfl
  | cons x xs ih =>
    rw [gather, both_eq_ok_iff]
    constructor
    · rintro ⟨here, rest, hx, hxs, rfl⟩
      obtain ⟨blocks, hblocks, rfl⟩ := ih.1 hxs
      exact ⟨here :: blocks, .cons hx hblocks, rfl⟩
    · rintro ⟨_, hall, rfl⟩
      obtain ⟨here, blocks, hx, hblocks, rfl⟩ := List.forall₂_cons_left_iff.1 hall
      exact ⟨here, blocks.flatten, hx, ih.2 ⟨blocks, hblocks, rfl⟩, rfl⟩

/-- The issue is about the collection and says that a name is repeated in it. -/
def Issue.repeatsName (collection : String) (i : Issue) : Bool :=
  i.collection == collection && "Duplicate names: ".toList.isPrefixOf i.message.toList

theorem Issue.repeatsName_of_begins {collection : String} {i : Issue}
    (h : i.message.toList.take 3 ≠ ['D', 'u', 'p']) : i.repeatsName collection = false := by
  refine Bool.and_eq_false_iff.2 (.inr (Bool.eq_false_iff.2 fun hp => h ?_))
  obtain ⟨rest, hrest⟩ := List.isPrefixOf_iff_prefix.1 hp
  rw [← hrest]
  rfl

namespace Schema

variable {S : Schema} {d : Script}

/-! ## Names -/

variable (S d) in
/-- The issues are those of some resources of a collection, one resource after the other; in front
of the issues of a resource whose name has occurred before there is one about the name. -/
def FlagsNames (collection : String) (vs : List Value) (issues : List Issue) : Prop :=
  ∃ blocks, issues = blocks.flatten ∧
    List.Forall₂ (fun m block => ∃ own, S.resourceIssues d collection m.1 = .ok own ∧
      block = repeatedName collection ((vs.take m.2).filterMap nameOf?) m.1 ++ own)
    vs.zipIdx blocks

theorem repeatedName_congr (collection : String) {before before' : List String}
    (h : ∀ name, name ∈ before ↔ name ∈ before') (v : Value) :
    repeatedName collection before v = repeatedName collection before' v := by
  have hc (name : String) : before.contains name = before'.contains name := by
    rw [Bool.eq_iff_iff, List.contains_iff_mem, List.contains_iff_mem, h]
  unfold repeatedName
  simp only [hc]

/-- The issues of the later resources of a collection. -/
theorem blocks_of_memberIssues {collection : String} {before : List String} (earlier : List Value)
    {vs : List Value} {issues : List Issue}
    (hb : ∀ name, name ∈ before ↔ name ∈ earlier.filterMap nameOf?)
    (h : S.memberIssues d collection before vs = .ok issues) :
    ∃ blocks, issues = blocks.flatten ∧
      List.Forall₂ (fun m block => ∃ own, S.resourceIssues d collection m.1 = .ok own ∧
        block = repeatedName collection (((earlier ++ vs).take m.2).filterMap nameOf?) m.1 ++ own)
      (vs.zipIdx earlier.length) blocks := by
  induction vs generalizing before earlier issues with
  | nil =>
    obtain rfl : [] = issues := Except.ok.inj h
    exact ⟨[], rfl, .nil⟩
  | cons v vs ih =>
    rw [memberIssues_cons] at h
    obtain ⟨here, rest, hhere, hrest, rfl⟩ := Search.both_eq_ok_iff.1 h
    obtain ⟨flag, own, hflag, hown, rfl⟩ := Search.both_eq_ok_iff.1 hhere
    obtain rfl : repeatedName collection before v = flag := Except.ok.inj hflag
    have hb' (name : String) : name ∈ (nameOf? v).toList ++ before ↔
        name ∈ (earlier ++ [v]).filterMap nameOf? := by
      rw [List.filterMap_append, List.mem_append, List.mem_append, hb, or_comm]
      rcases hn : nameOf? v with _ | n <;> simp [hn]
    obtain ⟨blocks, rfl, hblocks⟩ := ih (earlier ++ [v]) hb' hrest
    rw [List.length_append, List.length_singleton, List.append_assoc] at hblocks
    refine ⟨_ :: blocks, rfl, .cons ⟨own, hown, ?_⟩ hblocks⟩
    rw [List.take_left, repeatedName_congr collection hb]

theorem flagsNames_of_memberIssues {collection : String} {vs : List Value} {issues : List Issue}
    (h : S.memberIssues d collection [] vs = .ok issues) : S.FlagsNames d collection vs issues :=
  blocks_of_memberIssues [] (fun _ => .rfl) h

/-! ### No other issue is about a repeated name -/

theorem repeatsName_duplicateName (collection name : String) :
    (duplicateName collection name).repeatsName collection = true := by
  refine Bool.and_eq_true_iff.2 ⟨beq_self_eq_true collection, List.isPrefixOf_iff_prefix.2 ?_⟩
  change _ <+: ("Duplicate names: " ++ name).toList
  rw [String.toList_append]
  exact List.prefix_append _ _

/-- The issues about a resource itself are none about its name. -/
theorem filter_resourceIssues (hS : S.Hookless) {collection type : String} {c : Class}
    (hc : S.resourceFor? collection = some (type, c)) {v : Value} {own : List Issue}
    (h : S.resourceIssues d collection v = .ok own) :
    own.filter (Issue.repeatsName collection) = [] := by
  rw [resourceIssues_eq hc] at h
  obtain ⟨found, hfound, rfl⟩ := map_eq_ok_iff.1 h
  refine List.filter_eq_nil_iff.2 (List.forall_mem_map.2 fun p hp => Bool.eq_false_iff.1 ?_)
  exact Issue.repeatsName_of_begins
    (worded_classProblems d hS "" (S.describes_of_resourceFor hc) v found hfound p hp).begins

/-- The issues about names in a collection are those of the names that are repeated. -/
theorem filter_memberIssues (hS : S.Hookless) {collection type : String} {c : Class}
    (hc : S.resourceFor? collection = some (type, c)) {before : List String} {vs : List Value}
    {issues : List Issue} (h : S.memberIssues d collection before vs = .ok issues) :
    issues.filter (Issue.repeatsName collection) =
      (repeats id before (vs.filterMap nameOf?)).map (duplicateName collection) := by
  induction vs generalizing before issues with
  | nil =>
    obtain rfl : [] = issues := Except.ok.inj h
    rfl
  | cons v vs ih =>
    rw [memberIssues_cons] at h
    obtain ⟨here, rest, hhere, hrest, rfl⟩ := Search.both_eq_ok_iff.1 h
    obtain ⟨flag, own, hflag, hown, rfl⟩ := Search.both_eq_ok_iff.1 hhere
    obtain rfl : repeatedName collection before v = flag := Except.ok.inj hflag
    have hflag : (repeatedName collection before v).filter (Issue.repeatsName collection) =
        repeatedName collection before v := by
      refine List.filter_eq_self.2 ?_
      unfold repeatedName
      split
      · rename_i name _
        refine forall_mem_ite (List.forall_mem_singleton.2 ?_) (List.forall_mem_nil _)
        exact repeatsName_duplicateName collection name
      · exact List.forall_mem_nil _
    rw [map_repeats_names, List.filter_append, List.filter_append, hflag,
      filter_resourceIssues hS hc hown, List.append_nil, ih hrest]

/-- All issues of a collection are about it. -/
theorem collection_collectionIssues (refuseUnknown : Bool) (collection : String) :
    Search.Finds (fun i => i.collection = collection)
      (S.collectionIssues d refuseUnknown collection) := by
  have hresource (v : Value) : Search.Finds (fun i : Issue => i.collection = collection)
      (S.resourceIssues d collection v) := by
    rcases hc : S.resourceFor? collection with _ | ⟨type, c⟩
    · rw [resourceIssues, hc]
      exact .ok (List.forall_mem_singleton.2 rfl)
    · rw [resourceIssues_eq hc]
      intro issues hi
      obtain ⟨found, -, rfl⟩ := map_eq_ok_iff.1 hi
      exact List.forall_mem_map.2 fun _ _ => rfl
  have hname (before : List String) (v : Value) :
      ∀ i ∈ repeatedName collection before v, i.collection = collection := by
    unfold repeatedName
    split
    · exact forall_mem_ite (List.forall_mem_singleton.2 rfl) (List.forall_mem_nil _)
    · exact List.forall_mem_nil _
  have hmember (before : List String) (vs : List Value) :
      Search.Finds (fun i : Issue => i.collection = collection)
        (S.memberIssues d collection before vs) := by
    induction vs generalizing before with
    | nil => exact .ok (List.forall_mem_nil _)
    | cons v vs ih =>
      rw [memberIssues_cons]
      exact (Search.Finds.both (.ok (hname before v)) (hresource v)).both (ih _)
  unfold collectionIssues
  split
  · exact .ok (List.forall_mem_singleton.2 rfl)
  · split
    · exact .ok (forall_mem_ite (List.forall_mem_singleton.2 rfl) (List.forall_mem_nil _))
    · exact hmember _ _

variable (d) in
/-- The issues about the names in a collection that are repeated. -/
def repeatedNames (collection : String) : List Issue :=
  (repeats id [] ((d.collection collection).filterMap nameOf?)).map (duplicateName collection)

/-- Only the issues of the collection itself are about repeated names in it. -/
theorem filter_collectionIssues (hS : S.Hookless) {collection type : String} {c : Class}
    (hc : S.resourceFor? collection = some (type, c)) {refuseUnknown : Bool} {name : String}
    {issues : List Issue} (h : S.collectionIssues d refuseUnknown name = .ok issues) :
    issues.filter (Issue.repeatsName collection) =
      if name = collection then repeatedNames d collection else [] := by
  split
  · rename_i he
    subst he
    rw [repeatedNames, Script.collection]
    rcases ha : d.array? name with _ | vs
    · rw [collectionIssues, ha] at h
      obtain rfl := Except.ok.inj h
      refine List.filter_eq_nil_iff.2 (List.forall_mem_singleton.2 (Bool.eq_false_iff.1 ?_))
      refine Issue.repeatsName_of_begins ?_
      change ("Collection must be an array: " ++ name ++ ".").toList.take 3 ≠ _
      simp
    · rw [collectionIssues_eq ha (by rw [hc]; rfl)] at h
      exact filter_memberIssues hS hc h
  · rename_i hne
    refine List.filter_eq_nil_iff.2 fun i hi hr => hne ?_
    have hi := collection_collectionIssues refuseUnknown name issues h i hi
    exact hi.symm.trans (eq_of_beq (Bool.and_eq_true_iff.1 hr).1)

/-- Of some blocks, one for each name, only that of one name has anything of a kind. -/
theorem filter_flatten {p : Issue → Bool} {name : String} {found : List Issue}
    {names : List String} {blocks : List (List Issue)} (hn : names.Nodup)
    (h : List.Forall₂ (fun n block => block.filter p = if n = name then found else [])
      names blocks) : blocks.flatten.filter p = if name ∈ names then found else [] := by
  induction h with
  | nil => rfl
  | @cons n block names blocks hblock _ ih =>
    obtain ⟨hn, hns⟩ := List.nodup_cons.1 hn
    rw [List.flatten_cons, List.filter_append, hblock, ih hns]
    by_cases hname : n = name
    · subst hname
      simp [hn]
    · simp [hname, Ne.symm hname]

/-- There are no resources but those of the collections that are gone through. -/
theorem collection_of_not_mem_names {expected : UInt64} {collection : String}
    (hm : metaIssues expected (d.get? Script.metaKey) = []) (h : collection ∉ d.names) :
    d.collection collection = [] := by
  have hnone : d.array? collection = none := by
    by_cases hk : collection = Script.metaKey
    · obtain ⟨block, hb, -⟩ := metaIssues_eq_nil_iff.1 hm
      rw [Script.array?, hk, hb]
      rfl
    · have hkeys : collection ∉ d.entries.keys := fun hx =>
        h (List.mem_filter.2 ⟨hx, bne_iff_ne.2 hk⟩)
      have hget : d.get? collection = none :=
        Option.not_isSome_iff_eq_none.1 fun hx => hkeys ((d.entries.has_iff collection).1 hx)
      rw [Script.array?, hget]
      rfl
  rw [Script.collection, hnone]
  rfl

/-! ## Ids -/

/-- The instances with an id that counts, and the ids. -/
def counted (field : String) (is : List Instance) : List (Instance × Value) :=
  is.filterMap fun i => (countedId? field i).map (i, ·)

/-- The issue of an instance whose id has occurred before. -/
def duplicateId (kind : String) (x : Instance × Value) : Issue :=
  ⟨resourcePath x.1.place.collection x.1.resource, x.1.place.collection,
    duplicateIdMessage kind x.2.shown⟩

variable (S d) in
/-- The issues are those of the visited instances of a component whose id counts and has the text of
the id of one before, in the order of the walk. Of instances with one id these are all but one. -/
def FlagsIds (kind field : String) (issues : List Issue) : Prop :=
  ∃ is later, S.instances d kind = .ok is ∧
    List.Forall₂ (Instance.IsAt d) (S.findings (.component kind) d).seen is ∧
    later = repeats (fun x => x.2.text) [] (counted field is) ∧
    issues = later.map (duplicateId kind) ∧
    ∀ text, later.countP (fun x => x.2.text == text) =
      (counted field is).countP (fun x => x.2.text == text) - 1

theorem repeatedIds_eq (kind field : String) (before : List String) (is : List Instance) :
    repeatedIds kind field before is =
      (repeats (fun x => x.2.text) before (counted field is)).map (duplicateId kind) := by
  induction is generalizing before with
  | nil => rfl
  | cons i is ih =>
    rw [repeatedIds]
    rcases hi : countedId? field i with _ | id
    · have hcounted : counted field (i :: is) = counted field is :=
        List.filterMap_cons_none (by rw [hi]; rfl)
      rw [hcounted]
      exact ih before
    · have hcounted : counted field (i :: is) = (i, id) :: counted field is :=
        List.filterMap_cons_some (by rw [hi]; rfl)
      rw [hcounted, repeats, List.map_append]
      dsimp only
      rw [ih]
      by_cases hb : id.text ∈ before
      · rw [if_pos hb, if_pos (List.contains_iff_mem.2 hb)]
        rfl
      · rw [if_neg hb, if_neg (mt List.contains_iff_mem.1 hb)]
        rfl

theorem flagsIds_of_duplicateIdIssues (hd : d.entries.Distinct) {kind field : String}
    {issues : List Issue} (h : S.duplicateIdIssues d kind field = .ok issues) :
    S.FlagsIds d kind field issues := by
  obtain ⟨is, his, rfl⟩ := map_eq_ok_iff.1 h
  refine ⟨is, _, his, forall₂_instances hd his, rfl, repeatedIds_eq kind field [] is,
    fun text => ?_⟩
  have hcount := countP_repeats (fun x : Instance × Value => x.2.text) text [] (counted field is)
  rwa [if_neg List.not_mem_nil] at hcount

/-- Issues about ids are not about names. -/
theorem finds_issuesOfIds (collection : String) :
    Search.Finds (fun i => ¬ i.repeatsName collection = true) (S.issuesOfIds d) := by
  refine .gather (List.forall_mem_map.2 fun f _ issues h => ?_)
  obtain ⟨is, -, rfl⟩ := map_eq_ok_iff.1 h
  rw [repeatedIds_eq]
  refine List.forall_mem_map.2 fun x _ hx => ?_
  have hp := (Bool.and_eq_true_iff.1 hx).2
  change "Duplicate names: ".toList.isPrefixOf
    ("Duplicate id in " ++ f.1 ++ ": " ++ x.2.shown).toList = true at hp
  simp at hp

/-! ## All issues -/

/-- Where repetitions are reported among the issues of a script. -/
structure Flags (S : Schema) (d : Script) (issues : List Issue) : Prop where
  /-- The issues of the collections, and then those about ids, both in their order. -/
  blocks : ∃ ofCollections ofIds : List (List Issue),
    issues = ofCollections.flatten ++ ofIds.flatten ∧
    List.Forall₂ (fun name block => ∀ vs, d.array? name = some vs →
      (S.resourceFor? name).isSome = true → S.FlagsNames d name vs block) d.names ofCollections ∧
    List.Forall₂ (fun f block => S.FlagsIds d f.1 f.2 block) S.idFields ofIds
  /-- No other issue is about a repeated name in a collection of a registered type. -/
  names : ∀ collection, (S.resourceFor? collection).isSome = true →
    issues.filter (Issue.repeatsName collection) = repeatedNames d collection
  /-- Of resources with one name all but one are reported. -/
  nameCount : ∀ collection, (S.resourceFor? collection).isSome = true → ∀ name,
    issues.count (duplicateName collection name) =
      ((d.collection collection).filterMap nameOf?).count name - 1

theorem duplicateName_injective (collection : String) :
    Function.Injective (duplicateName collection) := by
  intro name name' h
  have hm : ("Duplicate names: " ++ name).toList = ("Duplicate names: " ++ name').toList :=
    congrArg (fun i => i.message.toList) h
  rw [String.toList_append, String.toList_append, List.append_right_inj] at hm
  exact String.toList_inj.1 hm

/-- Among all issues, those about the names in a collection are those of the names that are
repeated. -/
theorem filter_contentIssues (hS : S.Hookless) (hd : d.entries.Distinct) {expected : UInt64}
    (hm : metaIssues expected (d.get? Script.metaKey) = []) {refuseUnknown : Bool}
    {issues : List Issue} (h : S.contentIssues d refuseUnknown = .ok issues) {collection : String}
    (hr : (S.resourceFor? collection).isSome = true) :
    issues.filter (Issue.repeatsName collection) = repeatedNames d collection := by
  obtain ⟨own, ids, hown, hids, rfl⟩ := contentIssues_eq_ok_iff.1 h
  obtain ⟨blocks, hblocks, rfl⟩ := Search.gather_eq_ok_iff.1 hown
  obtain ⟨⟨type, c⟩, hc⟩ := Option.isSome_iff_exists.1 hr
  have hnone : ids.filter (Issue.repeatsName collection) = [] :=
    List.filter_eq_nil_iff.2 (finds_issuesOfIds collection ids hids)
  rw [List.forall₂_map_left_iff] at hblocks
  rw [List.filter_append, hnone, List.append_nil, filter_flatten (hd.filter _)
    (hblocks.imp fun name block hx => filter_collectionIssues hS hc hx)]
  split
  · rfl
  · rename_i hn
    rw [repeatedNames, collection_of_not_mem_names hm hn]
    rfl

theorem flags_of_contentIssues (hS : S.Hookless) (hd : d.entries.Distinct) {expected : UInt64}
    (hm : metaIssues expected (d.get? Script.metaKey) = []) {refuseUnknown : Bool}
    {issues : List Issue} (h : S.contentIssues d refuseUnknown = .ok issues) :
    S.Flags d issues := by
  refine ⟨?_, fun _ hr => filter_contentIssues hS hd hm h hr, fun collection hr name => ?_⟩
  · obtain ⟨own, ids, hown, hids, rfl⟩ := contentIssues_eq_ok_iff.1 h
    obtain ⟨ofCollections, hcollections, rfl⟩ := Search.gather_eq_ok_iff.1 hown
    obtain ⟨ofIds, hofIds, rfl⟩ := Search.gather_eq_ok_iff.1 hids
    rw [List.forall₂_map_left_iff] at hcollections hofIds
    refine ⟨ofCollections, ofIds, rfl, hcollections.imp fun name block hx vs ha hr => ?_,
      hofIds.imp fun f block hx => flagsIds_of_duplicateIdIssues hd hx⟩
    rw [collectionIssues_eq ha (by rw [Option.isNone_eq_false_iff]; exact hr)] at hx
    exact flagsNames_of_memberIssues hx
  · have hself := repeatsName_duplicateName collection name
    rw [← List.count_filter hself, filter_contentIssues hS hd hm h hr, repeatedNames,
      List.count_map_of_injective _ _ (duplicateName_injective collection)]
    have hcount := countP_repeats id name [] ((d.collection collection).filterMap nameOf?)
    rwa [if_neg List.not_mem_nil] at hcount

variable (S d) in
/-- The issues flag the repetitions of the script, and they decide on it. -/
def Verdict (r : Requirements) (issues : List Issue) : Prop :=
  S.Flags d issues ∧
    S.validate d r = if issues = [] then .ok () else .error (.invalid (.ofIssues issues))

theorem verdict_of_contentIssues (hS : S.Hookless) {r : Requirements} (hd : d.entries.Distinct)
    (hm : metaIssues r.version (d.get? Script.metaKey) = []) {issues : List Issue}
    (h : S.contentIssues d r.refuseUnknown = .ok issues) : S.Verdict d r issues := by
  refine ⟨flags_of_contentIssues hS hd hm h, ?_⟩
  rw [validate, hm, h]
  rcases issues with _ | ⟨i, is⟩ <;> rfl

/-- **Repetitions are reported at every occurrence but the first.** The issues that decide on a
script with a valid `meta` block flag them whenever validation returns, and so always if no
component hands a value on to itself. -/
theorem flags_of_validate (h : S.check = .ok ()) (hS : S.Hookless) (d : Script) (r : Requirements)
    (hd : d.entries.Distinct) (hm : metaIssues r.version (d.get? Script.metaKey) = []) :
    ((∃ issues, S.Verdict d r issues) ↔
        ∀ kind, S.validate d r ≠ .error (.schema (.circular kind))) ∧
      ((∃ issues, S.Verdict d r issues) ↔ S.ValidationReturns d) ∧
      (S.Grounded → ∃ issues, S.Verdict d r issues) := by
  have hsound : S.Sound := S.sound_of_check h
  have hverdict (hx : Search.Completes (S.contentIssues d r.refuseUnknown)) :
      ∃ issues, S.Verdict d r issues :=
    hx.imp fun _ hx => verdict_of_contentIssues hS hd hm hx
  have hcompletes (hne : ∀ kind, S.validate d r ≠ .error (.schema (.circular kind))) :
      Search.Completes (S.contentIssues d r.refuseUnknown) := by
    refine (contentIssues_blameless hsound d _).completes fun kind hk => hne kind ?_
    rw [validate, hm, hk]
    rfl
  have hends (hx : ∃ issues, S.Verdict d r issues) (kind : String) :
      S.validate d r ≠ .error (.schema (.circular kind)) := by
    obtain ⟨issues, -, hv⟩ := hx
    intro hc
    rw [hv] at hc
    split at hc <;> cases hc
  have hreturns := completes_contentIssues_iff hsound hd r.refuseUnknown
  exact ⟨⟨hends, fun hne => hverdict (hcompletes hne)⟩,
    ⟨fun hx => hreturns.1 (hcompletes (hends hx)), fun hr => hverdict (hreturns.2 hr)⟩,
    fun hg => hverdict (hreturns.2 (validationReturns_of_grounded hg))⟩

/-- Three scenes of one name, the first and the last of which share the id of a cue. -/
def rehearsal : Script :=
  ⟨[("meta", .object [("version", .number (.int 1))]),
    ("scenes", .array [
      .object [("name", .string "day"),
        ("cues", .array [.object [("type", .string "line"), ("id", .number (.int 1))]])],
      .object [("name", .string "day")],
      .object [("name", .string "day"),
        ("cues", .array [.object [("type", .string "line"), ("id", .number (.int 1))]])]])]⟩

theorem flags_rehearsal :
    scenes.check = .ok () ∧ scenes.Hookless ∧ rehearsal.entries.Distinct ∧
      metaIssues 1 (rehearsal.get? Script.metaKey) = [] ∧
      scenes.Grounded ∧ ∃ issues, scenes.Verdict rehearsal ⟨1, true⟩ issues :=
  have hd : rehearsal.entries.Distinct := by decide
  have hm : metaIssues 1 (rehearsal.get? Script.metaKey) = [] := by cbv
  ⟨rfl, hookless_scenes, hd, hm, grounded_scenes,
    (flags_of_validate rfl hookless_scenes rehearsal ⟨1, true⟩ hd hm).2.2 grounded_scenes⟩

-- one issue less than there are scenes of the name, and one less than there are cues of the id
example : scenes.memberIssues rehearsal "scenes" [] (rehearsal.collection "scenes") =
      .ok [duplicateName "scenes" "day", duplicateName "scenes" "day"] ∧
    (scenes.duplicateIdIssues rehearsal "cue" "id").map List.length = .ok 1 := by
  constructor <;> cbv

end Schema

end ScriptSchema
