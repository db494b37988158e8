import ScriptSchema.Proofs.Tidy
import ScriptSchema.Proofs.Upgrade

/-!
# Samples

A sample says what the steps of a migration leave of a script, version and all. A migration runs the
same steps and then writes its number as the version. What a sample was checked for therefore holds
of real migrations too, up to the version, and that may be written on both sides: equality of values
looks at objects without their order, and stays when an entry is written.

* `same_object_iff`: equal objects, by their entries;
* `same_put`, `same_withVersion`: an entry is written on both sides;
* `Plan.Upholds`, `checkSamples_eq_ok_iff`: what samples say that were checked;
* **`migrate_sample`**: a sample that holds predicts the migration.
-/

namespace ScriptSchema

/-! ## Equality up to the order of entries -/

namespace Value

variable {as bs : Entries Value}

theorem sameEntries_iff : sameEntries as bs = true ↔
    ∀ e ∈ as, ∃ b, bs.lookup e.1 = some b ∧ e.2.same b = true := by
  induction as with
  | nil => simp [sameEntries]
  | cons e as ih =>
    obtain ⟨key, a⟩ := e
    rw [sameEntries, Bool.and_eq_true, ih, List.forall_mem_cons, Option.any_eq_true]

/-- Only an object equals an object. -/
theorem exists_of_same_object {v : Value} (h : (object as).same v = true) :
    ∃ bs, v = object bs := by
  cases v with
  | object bs => exact ⟨bs, rfl⟩
  | _ => cases h

/-- Objects are equal if they have as many entries, and those of the one have equals in the
other. -/
theorem same_object_iff (ha : as.Distinct) : (object as).same (object bs) = true ↔
    as.length = bs.length ∧
      ∀ key a, as.lookup key = some a → ∃ b, bs.lookup key = some b ∧ a.same b = true := by
  rw [same, Bool.and_eq_true, beq_iff_eq, sameEntries_iff]
  refine and_congr_right fun _ => ⟨fun h key a hl => ?_, fun h e he => ?_⟩
  · exact h (key, a) (mem_of_lookup hl)
  · exact h e.1 e.2 (ha.lookup_eq he)

/-- They have the same keys, as there is none left over. -/
theorem mem_keys_of_same (ha : as.Distinct) (h : (object as).same (object bs) = true)
    (key : String) : key ∈ as.keys ↔ key ∈ bs.keys := by
  obtain ⟨hlength, hlookup⟩ := (same_object_iff ha).1 h
  have hsub : as.keys ⊆ bs.keys := by
    intro key hk
    obtain ⟨a, hl⟩ := Option.isSome_iff_exists.1 ((Entries.has_iff as key).2 hk)
    obtain ⟨b, hb, -⟩ := hlookup key a hl
    exact (Entries.has_iff bs key).1 (Option.isSome_iff_exists.2 ⟨b, hb⟩)
  have hperm : as.keys.Perm bs.keys := by
    refine (List.subperm_of_subset ha hsub).perm_of_length_le ?_
    rw [Entries.keys, Entries.keys, List.length_map, List.length_map, hlength]
  exact hperm.mem_iff

theorem length_put (es : Entries Value) (key : String) (v : Value) :
    (es.put key v).length = if key ∈ es.keys then es.length else es.length + 1 := by
  have h := congrArg List.length (Entries.keys_put es key v)
  rw [Entries.keys, List.length_map] at h
  rw [h]
  split
  · exact List.length_map _
  · rw [List.length_append, Entries.keys, List.length_map, List.length_singleton]

/-- Equal objects are equal still when equal values are written under one key. -/
theorem same_put (ha : as.Distinct) (h : (object as).same (object bs) = true) (key : String)
    {a b : Value} (hab : a.same b = true) :
    (object (as.put key a)).same (object (bs.put key b)) = true := by
  obtain ⟨hlength, hlookup⟩ := (same_object_iff ha).1 h
  refine (same_object_iff (ha.put key a)).2 ⟨?_, fun k a' hl => ?_⟩
  · rw [length_put, length_put, hlength]
    simp only [mem_keys_of_same ha h]
  · rw [Entries.lookup_put] at hl ⊢
    split at hl
    · rename_i hk
      obtain rfl := Option.some.inj hl
      exact ⟨b, if_pos hk, hab⟩
    · rename_i hk
      rw [if_neg hk]
      exact hlookup k a' hl

theorem same_ofUInt64 (n : UInt64) : (ofUInt64 n).same (ofUInt64 n) = true := by
  simp [ofUInt64, same, Number.same]

end Value

namespace Script

theorem eq_value_of_ofValue? {v : Value} {d : Script} (h : ofValue? v = some d) : v = d.value := by
  obtain ⟨es, he, rfl⟩ := Option.map_eq_some_iff.1 h
  exact (object_of_object? he).symm

variable {d e : Script}

/-- Equal scripts have equal `meta` blocks, also if those are missing or something else. -/
theorem same_metaEntries (hd : d.entries.Distinct) (h : d.same e = true) :
    (Value.object d.metaEntries).same (.object e.metaEntries) = true := by
  have hempty : (Value.object []).same (.object []) = true := rfl
  unfold metaEntries get?
  rcases hm : d.entries.lookup metaKey with _ | v
  · have hn : e.entries.lookup metaKey = none := by
      rw [← Option.not_isSome_iff_eq_none] at hm ⊢
      rwa [← Entries.has, Entries.has_iff, ← Value.mem_keys_of_same hd h, ← Entries.has_iff]
    rw [hn]
    exact hempty
  · obtain ⟨w, hw, hs⟩ := ((Value.same_object_iff hd).1 h).2 metaKey v hm
    rw [hw]
    cases v <;> cases w <;> first | exact hs | exact hempty | cases hs

/-- **Equal scripts are equal still when the version is written.** -/
theorem same_withVersion (hd : d.Tidy) (h : d.same e = true) (n : UInt64) :
    (d.withVersion n).same (e.withVersion n) = true := by
  have hblock : (Value.object (d.metaEntries.put "version" (.ofUInt64 n))).same
      (.object (e.metaEntries.put "version" (.ofUInt64 n))) = true :=
    Value.same_put hd.metaEntries.keys (same_metaEntries hd.keys h) "version"
      (Value.same_ofUInt64 n)
  rw [withVersion_eq_put, withVersion_eq_put]
  exact Value.same_put hd.keys h metaKey hblock

end Script

/-! ## Samples that hold -/

namespace Plan

variable {m : Plan} {a : Migration}

/-- What the sample says holds: it starts from a script, no step stops early, and what the steps
leave is what the sample has after them. -/
def Upholds (m : Plan) (a : Migration) (sample : Sample) : Prop :=
  ∃ d, Script.ofValue? sample.before = some d ∧ (m.run a d (.start sample.assets)).stop = none ∧
    (m.run a d (.start sample.assets)).script.value.same sample.after = true

theorem checkSample_eq_ok_iff {sample : Sample} {index : Nat} :
    m.checkSample a sample index = .ok () ↔ m.Upholds a sample := by
  unfold checkSample Upholds
  rcases Script.ofValue? sample.before with _ | d
  · simp
  · rcases hp : (m.run a d (.start sample.assets)).stop with _ | cause
    · simp [hp]
    · simp [hp]

theorem checkSamples_eq_ok_iff :
    m.checkSamples a = .ok () ↔ ∀ sample ∈ a.samples, m.Upholds a sample := by
  rw [checkSamples, forM_eq_ok_iff]
  exact (forall₂_congr fun _ _ => checkSample_eq_ok_iff).trans forall_mem_zipIdx

theorem apply_of_stop_eq_none {assets : Option Value} {d : Script}
    (h : (m.run a d (.start assets)).stop = none) :
    m.apply assets d a = .ok ((m.run a d (.start assets)).script.withVersion a.num) := by
  unfold apply
  dsimp only
  rw [h]

/-- With one migration, a script of a lower version is migrated by that. -/
theorem migrate_singleton {S : Schema} {depth : Nat} (hb : build S depth [a] = .ok m) {d : Script}
    {version : UInt64} (hv : d.version? = some version) (hlt : version < a.num)
    (assets : Option Value) : m.migrate d assets = m.apply assets d a := by
  have hm : m.migrations = [a] := by
    obtain ⟨rfl, -⟩ := build_eq_ok_iff_ascending.1 hb
    exact List.mergeSort_singleton a
  have hp : m.pending version = [a] := by
    rw [pending, hm, List.filter_singleton, decide_eq_true hlt]
    rfl
  rw [migrate_of_version? hv, hp, List.foldlM_cons]
  rcases m.apply assets d a with e | d' <;> rfl

/-- **A sample that holds predicts the migration.** A script of a lower version that is migrated
with the assets of the sample becomes what the sample says, with the number of the migration as the
version. No object holds a key twice, as in all that a script is read from. -/
theorem migrate_sample {S : Schema} {depth : Nat} (hb : build S depth [a] = .ok m)
    (hc : m.checkSamples a = .ok ()) (hsteps : ∀ step ∈ a.steps, step.Tidy) {sample : Sample}
    (hs : sample ∈ a.samples) (hbefore : sample.before.Tidy)
    (hassets : ∀ v ∈ sample.assets, v.Tidy) {d : Script}
    (hd : Script.ofValue? sample.before = some d) {version : UInt64}
    (hv : d.version? = some version) (hlt : version < a.num) :
    ∃ d' after, m.migrate d sample.assets = .ok d' ∧ Script.ofValue? sample.after = some after ∧
      d'.same (after.withVersion a.num) = true := by
  obtain ⟨d₀, hd₀, hstop, hsame⟩ := checkSamples_eq_ok_iff.1 hc sample hs
  obtain rfl : d = d₀ := Option.some.inj (hd.symm.trans hd₀)
  obtain ⟨after, ha⟩ := Value.exists_of_same_object hsame
  rw [ha] at hsame
  have htidy : d.Tidy := (Script.eq_value_of_ofValue? hd ▸ hbefore).entries
  have hleft : (m.run a d (.start sample.assets)).script.Tidy :=
    (m.schema.runSteps_tidy m.depth htidy (.start hassets) hsteps).1
  have hmigrate := (migrate_singleton hb hv hlt sample.assets).trans (apply_of_stop_eq_none hstop)
  exact ⟨_, ⟨after⟩, hmigrate, congrArg Script.ofValue? ha,
    Script.same_withVersion hleft hsame a.num⟩

/-- A script of version one. -/
def untitled : Script :=
  ⟨[("meta", .object [("version", .number (.int 1))]), ("scenes", .array [.string "eve"])]⟩

/-- What becomes of it, in another order and without a version. -/
def retitled : Sample :=
  ⟨untitled.value, .object [("titles", .array [.string "eve"]), ("scenes", .array [.string "eve"]),
    ("meta", .string "old")], none⟩

/-- A migration that puts a text in the place of the `meta` block and queues every scene as a
title. -/
def retitle : Migration :=
  ⟨3, "retitle",
    [.script fun w d => ⟨d.put Script.metaKey (.string "old"), w.scratch, .queues [], none⟩,
      .collection "scenes" fun w v => ⟨v, w.scratch, .queues [("titles", v)], none⟩], [retitled]⟩

theorem tidy_retitle : ∀ step ∈ retitle.steps, step.Tidy := by
  refine List.forall_mem_cons.2 ⟨fun w d hw hd => ?_, List.forall_mem_singleton.2 ?_⟩
  · exact ⟨hd.put _ (.string "old"), hw.absorb_queues rfl hw.scratch nofun⟩
  · exact fun w v hw hv => ⟨hv, hw.absorb_queues rfl hw.scratch (List.forall_mem_singleton.2 hv)⟩

theorem tidy_untitled : untitled.Tidy := by
  refine ⟨by decide, List.forall_mem_cons.2 ⟨?_, List.forall_mem_singleton.2 ?_⟩⟩
  · exact .object (by decide) (List.forall_mem_singleton.2 (.number _))
  · exact .array (List.forall_mem_singleton.2 (.string _))

theorem migrate_sample_retitle :
    build Schema.scenes 8 [retitle] = .ok ⟨Schema.scenes, 8, [retitle]⟩ ∧
      checkSamples ⟨Schema.scenes, 8, [retitle]⟩ retitle = .ok () ∧
      (∀ step ∈ retitle.steps, step.Tidy) ∧ retitled ∈ retitle.samples ∧ retitled.before.Tidy ∧
      (∀ v ∈ retitled.assets, v.Tidy) ∧ Script.ofValue? retitled.before = some untitled ∧
      untitled.version? = some 1 ∧ 1 < retitle.num ∧
      ∃ d' after, migrate ⟨Schema.scenes, 8, [retitle]⟩ untitled retitled.assets = .ok d' ∧
        Script.ofValue? retitled.after = some after ∧
        d'.same (after.withVersion retitle.num) = true := by
  have hb : build Schema.scenes 8 [retitle] = .ok ⟨Schema.scenes, 8, [retitle]⟩ := by cbv
  have hc : checkSamples ⟨Schema.scenes, 8, [retitle]⟩ retitle = .ok () := by cbv
  have hs : retitled ∈ retitle.samples := List.mem_cons_self
  have hbefore : retitled.before.Tidy := tidy_untitled.object
  have hassets : ∀ v ∈ retitled.assets, v.Tidy := fun v hv => absurd hv (Option.not_mem_none v)
  have hd : Script.ofValue? retitled.before = some untitled := rfl
  have hv : untitled.version? = some 1 := by cbv
  have hlt : (1 : UInt64) < retitle.num := by decide
  exact ⟨hb, hc, tidy_retitle, hs, hbefore, hassets, hd, hv, hlt,
    migrate_sample hb hc tidy_retitle hs hbefore hassets hd hv hlt⟩

end Plan

end ScriptSchema
