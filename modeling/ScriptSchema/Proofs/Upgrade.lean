import Mathlib.Data.List.Basic
import Mathlib.Data.List.Nodup
import ScriptSchema.Proofs.Conformance

/-!
# Bringing scripts up to date

Transforms may do what they like to a script, its `meta` block included. What a plan says about
versions holds all the same, because the version is written after each migration and the next one
is handed nothing but the script.

* `Migration.Ascending`, `build_eq_ok_iff_ascending`: the migrations of a plan have increasing
  numbers;
* `Script.startingVersion?`, `entry_eq_ok_iff`: where migrations begin;
* `version?_apply`, `version?_foldlM_apply`: the version after one migration, and after many;
* **`migrate_reaches_latest`**: a migrated script has the latest version, needs no migration and is
  not changed by migrating it again;
* **`migrate_after_migrate`**: migrating in two stages is migrating at once.
-/

namespace ScriptSchema

/-- The version from which a script is brought up to date: zero without a `meta` block. -/
def Script.startingVersion? (d : Script) : Option UInt64 :=
  if (d.get? metaKey).isNone then some 0 else d.version?

/-! ## Migrations in order -/

namespace Migration

/-- The numbers increase. -/
def Ascending (ms : List Migration) : Prop := ms.Pairwise fun a b => a.num < b.num

theorem sort_perm (ms : List Migration) : (sort ms).Perm ms := List.mergeSort_perm ms _

theorem mem_sort {ms : List Migration} {a : Migration} : a ∈ sort ms ↔ a ∈ ms :=
  (sort_perm ms).mem_iff

theorem sort_pairwise (ms : List Migration) : (sort ms).Pairwise fun a b => a.num ≤ b.num := by
  have h : (sort ms).Pairwise fun a b => decide (a.num ≤ b.num) = true :=
    List.pairwise_mergeSort
      (fun a b c hab hbc => by
        simp only [decide_eq_true_eq] at hab hbc ⊢
        exact UInt64.le_trans hab hbc)
      (fun a b => by
        simp only [Bool.or_eq_true, decide_eq_true_eq]
        exact UInt64.le_total a.num b.num) ms
  exact h.imp fun hab => of_decide_eq_true hab

/-- Among sorted migrations no number repeats if they are strictly sorted. -/
theorem repeated?_eq_none_iff_ascending {ms : List Migration}
    (h : ms.Pairwise fun a b => a.num ≤ b.num) : repeated? ms = none ↔ Ascending ms := by
  induction ms with
  | nil => exact ⟨fun _ => .nil, fun _ => rfl⟩
  | cons a ms ih =>
    obtain ⟨ha, hms⟩ := List.pairwise_cons.1 h
    cases ms with
    | nil => exact ⟨fun _ => List.pairwise_singleton _ _, fun _ => rfl⟩
    | cons b ms =>
      have hab : a.num ≤ b.num := ha b List.mem_cons_self
      rw [repeated?, Ascending, List.pairwise_cons]
      by_cases he : a.num = b.num
      · rw [if_pos he]
        refine ⟨nofun, fun hx => ?_⟩
        have hlt : a.num < b.num := hx.1 b List.mem_cons_self
        exact absurd (he ▸ hlt) (UInt64.lt_irrefl _)
      · rw [if_neg he, ih hms]
        have hlt : a.num < b.num := UInt64.lt_of_le_of_ne hab he
        refine ⟨fun hx => ⟨fun c hc => ?_, hx⟩, fun hx => hx.2⟩
        rcases List.mem_cons.1 hc with rfl | hc
        · exact hlt
        · exact UInt64.lt_trans hlt ((List.pairwise_cons.1 hx).1 c hc)

theorem unknownKind?_eq_none_iff {S : Schema} {ms : List Migration} :
    unknownKind? S ms = none ↔
      ∀ a ∈ ms, ∀ kind change, Step.component kind change ∈ a.steps → S.Registers kind := by
  unfold unknownKind?
  rw [List.findSome?_eq_none_iff]
  constructor
  · intro h a ha kind change hs
    have hk := h _ (List.mem_flatMap.2 ⟨a, ha, hs⟩)
    dsimp only at hk
    rw [Schema.Registers, Option.isSome_iff_ne_none]
    intro hn
    rw [hn] at hk
    cases hk
  · intro h step hstep
    obtain ⟨a, ha, hs⟩ := List.mem_flatMap.1 hstep
    cases step with
    | component kind change =>
      have hk : (S.components.find? kind).isNone = false :=
        Option.isNone_eq_false_iff.2 (h a ha kind change hs)
      simp only [hk, Bool.false_eq_true, if_false]
    | script change => rfl
    | collection name change => rfl

/-- Migrations up to a number come before all others. -/
theorem Ascending.filter_append_filter {ms : List Migration} (h : Ascending ms) (k : UInt64) :
    ms.filter (fun a => a.num ≤ k) ++ ms.filter (fun a => k < a.num) = ms := by
  induction ms with
  | nil => rfl
  | cons a ms ih =>
    obtain ⟨ha, hms⟩ := List.pairwise_cons.1 h
    by_cases hk : a.num ≤ k
    · have hk' : ¬ k < a.num := UInt64.not_lt.2 hk
      simp only [List.filter_cons, hk, hk', decide_true, decide_false, if_true, Bool.false_eq_true,
        if_false, List.cons_append, ih hms]
    · have hlt : k < a.num := UInt64.not_le.1 hk
      have hlate (b : Migration) (hb : b ∈ a :: ms) : k < b.num := by
        rcases List.mem_cons.1 hb with rfl | hb
        · exact hlt
        · exact UInt64.lt_trans hlt (ha b hb)
      have hnone : (a :: ms).filter (fun b => b.num ≤ k) = [] :=
        List.filter_eq_nil_iff.2 fun b hb => by
          rw [decide_eq_true_eq, UInt64.not_le]
          exact hlate b hb
      have hall : (a :: ms).filter (fun b => k < b.num) = a :: ms :=
        List.filter_eq_self.2 fun b hb => decide_eq_true (hlate b hb)
      rw [hnone, hall, List.nil_append]

theorem Ascending.nodup {ms : List Migration} (h : Ascending ms) : (ms.map Migration.num).Nodup :=
  List.pairwise_map.2 (h.imp fun hlt => UInt64.ne_of_lt hlt)

/-- Sorted migrations with different numbers are told by what they are, without their order. -/
theorem eq_of_perm {as bs : List Migration} (h : as.Perm bs) (hn : (as.map Migration.num).Nodup)
    (has : as.Pairwise fun a b => a.num ≤ b.num) (hbs : bs.Pairwise fun a b => a.num ≤ b.num) :
    as = bs :=
  h.eq_of_pairwise (fun _ _ ha hb hab hba =>
    List.inj_on_of_nodup_map hn ha (h.mem_iff.2 hb) (UInt64.le_antisymm hab hba)) has hbs

/-- Sorting some of the migrations leaves them in the order of all. -/
theorem sort_filter {ms : List Migration} (h : Ascending (sort ms)) (p : Migration → Bool) :
    sort (ms.filter p) = (sort ms).filter p := by
  have hperm : ((sort ms).filter p).Perm (sort (ms.filter p)) :=
    ((sort_perm ms).filter p).trans (sort_perm _).symm
  have hn : (((sort ms).filter p).map Migration.num).Nodup :=
    Ascending.nodup (List.Pairwise.filter p h)
  exact (eq_of_perm hperm hn ((sort_pairwise ms).filter p) (sort_pairwise _)).symm

end Migration

namespace Plan

open Migration

/-! ## Plans -/

/-- Migrations make a plan if no number repeats and every component step has a component. -/
theorem build_eq_ok_iff_ascending {S : Schema} {depth : Nat} {ms : List Migration} {m : Plan} :
    build S depth ms = .ok m ↔ m = ⟨S, depth, sort ms⟩ ∧ Ascending (sort ms) ∧
      ∀ a ∈ ms, ∀ kind change, Step.component kind change ∈ a.steps → S.Registers kind := by
  have hk : unknownKind? S (sort ms) = none ↔
      ∀ a ∈ ms, ∀ kind change, Step.component kind change ∈ a.steps → S.Registers kind := by
    rw [unknownKind?_eq_none_iff]
    exact ⟨fun h a ha => h a (mem_sort.2 ha), fun h a ha => h a (mem_sort.1 ha)⟩
  rw [← hk, ← repeated?_eq_none_iff_ascending (sort_pairwise ms), build]
  rcases repeated? (sort ms) with _ | num
  · rcases unknownKind? S (sort ms) with _ | kind
    · simp [eq_comm]
    · simp
  · simp

/-! ## The latest version -/

variable {m : Plan}

theorem max_eq_of_le {a b : UInt64} (h : a ≤ b) : max a b = b := if_pos h

theorem max_eq_of_lt {a b : UInt64} (h : b < a) : max a b = a := if_neg (UInt64.not_le.2 h)

theorem le_max_right (a b : UInt64) : b ≤ max a b := by
  by_cases h : a ≤ b
  · rw [max_eq_of_le h]
    exact UInt64.le_refl b
  · have hlt := UInt64.not_le.1 h
    rw [max_eq_of_lt hlt]
    exact UInt64.le_of_lt hlt

theorem max_lt_iff {a b c : UInt64} : max a b < c ↔ a < c ∧ b < c := by
  by_cases h : a ≤ b
  · rw [max_eq_of_le h]
    exact ⟨fun hb => ⟨UInt64.lt_of_le_of_lt h hb, hb⟩, fun hx => hx.2⟩
  · have hlt := UInt64.not_le.1 h
    rw [max_eq_of_lt hlt]
    exact ⟨fun ha => ⟨ha, UInt64.lt_trans hlt ha⟩, fun hx => hx.1⟩

theorem le_latest (hm : Ascending m.migrations) {a : Migration} (ha : a ∈ m.migrations) :
    a.num ≤ m.latest := by
  unfold latest
  rcases hl : m.migrations.getLast? with _ | last
  · rw [List.getLast?_eq_none_iff.1 hl] at ha
    nomatch ha
  · obtain ⟨before, hb⟩ := List.getLast?_eq_some_iff.1 hl
    rw [Ascending, hb, List.pairwise_append] at hm
    rw [hb, List.mem_append, List.mem_singleton] at ha
    rcases ha with ha | rfl
    · exact UInt64.le_of_lt (hm.2.2 a ha last (List.mem_singleton.2 rfl))
    · exact UInt64.le_refl _

theorem latest_le {k : UInt64} (h : ∀ a ∈ m.migrations, a.num ≤ k) : m.latest ≤ k := by
  unfold latest
  rcases hl : m.migrations.getLast? with _ | last
  · exact UInt64.zero_le
  · exact h last (List.mem_of_getLast? hl)

/-- **From the latest version on no migration is pending.** -/
theorem pending_eq_nil (hm : Ascending m.migrations) {version : UInt64} (h : m.latest ≤ version) :
    m.pending version = [] := by
  refine List.filter_eq_nil_iff.2 fun a ha => ?_
  rw [decide_eq_true_eq, UInt64.not_lt]
  exact UInt64.le_trans (le_latest hm ha) h

/-- The last of the pending migrations is the last of all. -/
theorem getLast?_pending (hm : Ascending m.migrations) (version : UInt64) :
    ((m.pending version).getLast?.map Migration.num).getD version = max version m.latest := by
  by_cases h : version < m.latest
  · rw [max_eq_of_le (UInt64.le_of_lt h)]
    rcases hl : m.migrations.getLast? with _ | last
    · rw [latest, hl] at h
      exact absurd h UInt64.not_lt_zero
    · obtain ⟨before, hb⟩ := List.getLast?_eq_some_iff.1 hl
      have hlast : m.latest = last.num := by rw [latest, hl]; rfl
      rw [hlast] at h ⊢
      rw [pending, hb, List.filter_append, List.filter_singleton, decide_eq_true h, cond_true,
        List.getLast?_concat]
      rfl
  · have hle : m.latest ≤ version := UInt64.not_lt.1 h
    rw [pending_eq_nil hm hle]
    rcases UInt64.lt_or_eq_of_le hle with hlt | heq
    · exact (max_eq_of_lt hlt).symm
    · exact ((max_eq_of_le (UInt64.le_of_eq heq.symm)).trans heq).symm

/-! ## Where migrations begin -/

/-- A script with a version is handed to the migrations as it is. -/
theorem entry_of_version? {d : Script} {version : UInt64} (h : d.version? = some version) :
    entry d = .ok (d, version) := by
  unfold entry
  split
  · rename_i hm
    rw [Script.version?, hm] at h
    nomatch h
  · rw [h]

theorem entry_eq_ok_iff {d d' : Script} {version : UInt64} :
    entry d = .ok (d', version) ↔ d.startingVersion? = some version ∧
      d' = if (d.get? Script.metaKey).isNone then d.withVersion 0 else d := by
  unfold entry Script.startingVersion?
  rcases d.get? Script.metaKey with _ | block
  · simp [eq_comm, and_comm]
  · rcases d.version? with _ | v
    · simp
    · simp [eq_comm, and_comm]

theorem version?_entry {d d' : Script} {version : UInt64} (h : entry d = .ok (d', version)) :
    d'.version? = some version := by
  obtain ⟨hs, rfl⟩ := entry_eq_ok_iff.1 h
  unfold Script.startingVersion? at hs
  split at hs
  · rename_i hm
    rw [if_pos hm, ← hs]
    exact Script.version?_withVersion d 0
  · rename_i hm
    rwa [if_neg hm]

/-- An accepted script has the version that is asked for. -/
theorem version?_of_validate {S : Schema} {d : Script} {r : Requirements}
    (h : S.validate d r = .ok ()) : d.version? = some r.version := by
  obtain ⟨fields, hb, hv, -⟩ := metaIssues_eq_nil_iff.1 (Schema.validate_eq_ok_iff.1 h).1
  rw [Script.version?, hb]
  exact (congrArg (Option.bind · Value.uint64?) hv).trans (Value.uint64?_ofUInt64 _)

/-- From a script with a version the pending migrations are applied one after the other. -/
theorem migrate_of_version? {d : Script} {version : UInt64} (h : d.version? = some version)
    (assets : Option Value) :
    m.migrate d assets = (m.pending version).foldlM (m.apply assets) d := by
  rw [migrate, entry_of_version? h]
  rfl

/-! ## Versions -/

/-- **After a migration the version is its number**, whatever its transforms left. -/
theorem version?_apply {assets : Option Value} {d d' : Script} {a : Migration}
    (h : m.apply assets d a = .ok d') : d'.version? = some a.num := by
  unfold apply at h
  dsimp only at h
  split at h
  · nomatch h
  · rw [← Except.ok.inj h]
    exact Script.version?_withVersion _ a.num

/-- After some migrations the version is the number of the last one. -/
theorem version?_foldlM_apply {assets : Option Value} {as : List Migration} {d d' : Script}
    {version : UInt64} (hv : d.version? = some version)
    (h : as.foldlM (m.apply assets) d = .ok d') :
    d'.version? = some ((as.getLast?.map Migration.num).getD version) := by
  induction as generalizing d version with
  | nil =>
    obtain rfl : d = d' := Except.ok.inj h
    exact hv
  | cons a as ih =>
    rw [List.foldlM_cons] at h
    obtain ⟨d₁, h₁, h⟩ := bind_eq_ok_iff.1 h
    rw [ih (version?_apply h₁) h, List.getLast?_cons]
    rcases as.getLast? with _ | last <;> rfl

/-- **A migrated script has the latest version**, or the one that it had before if that is higher
still. -/
theorem version?_migrate (hm : Ascending m.migrations) {d d' : Script} {assets : Option Value}
    {version : UInt64} (hs : d.startingVersion? = some version)
    (h : m.migrate d assets = .ok d') : d'.version? = some (max version m.latest) := by
  obtain ⟨⟨d₀, v⟩, he, h⟩ := bind_eq_ok_iff.1 h
  obtain rfl : v = version := Option.some.inj ((entry_eq_ok_iff.1 he).1.symm.trans hs)
  rw [version?_foldlM_apply (version?_entry he) h, getLast?_pending hm]

/-- Two migrations, the later one first. One writes a version of its own, the other removes the
`meta` block and queues a scene. -/
def overhaul : List Migration :=
  [⟨7, "clear", [.script fun w d =>
      ⟨d.delete Script.metaKey, w.scratch, .queues [("scenes", .object [("name", .string "eve")])],
        none⟩], []⟩,
    ⟨2, "renumber", [.script fun w d => ⟨d.withVersion 99, w.scratch, .queues [], none⟩], []⟩]

/-- The two in order. -/
def overhaulPlan : Plan := ⟨Schema.scenes, 8, overhaul.reverse⟩

/-- What the two leave of a script without entries. -/
def overhauled : Script :=
  ⟨[("scenes", .array [.object [("name", .string "eve")]]),
    ("meta", .object [("version", .number (.int 7))])]⟩

theorem build_overhaul : build Schema.scenes 8 overhaul = .ok overhaulPlan := by cbv

theorem migrate_overhaul : overhaulPlan.migrate .empty none = .ok overhauled := by cbv

theorem validate_overhauled :
    Workbench.validate ⟨Schema.scenes, overhaulPlan, .default⟩ overhauled = .ok () := by
  have hm : Schema.scenes.memberIssues overhauled "scenes" [] (overhauled.collection "scenes") =
      .ok [] := by cbv
  have hi : Schema.scenes.duplicateIdIssues overhauled "cue" "id" = .ok [] := by cbv
  exact Schema.validate_scenes (by cbv) (by cbv) (by cbv) hm hi

/-- **Migration reaches the latest version and stays there.** A migrated script has the latest
version, or its own if that is higher; no migration is pending for it, and to migrate it again
changes nothing. A workbench that asks for the latest version accepts only such scripts. -/
theorem migrate_reaches_latest (S : Schema) (depth : Nat) (ms : List Migration) :
    (∀ m, build S depth ms = .ok m → ∀ d assets d', m.migrate d assets = .ok d' →
      ∃ version, d.startingVersion? = some version ∧
        d'.version? = some (max version m.latest) ∧ m.pending (max version m.latest) = [] ∧
        ∀ assets', m.migrate d' assets' = .ok d') ∧
    ∀ settings b, Workbench.build S depth ms settings = .ok b → settings.version = none →
      ∀ d, b.validate d = .ok () → b.pending d = [] := by
  constructor
  · intro m hb d assets d' h
    obtain ⟨rfl, hm, -⟩ := build_eq_ok_iff_ascending.1 hb
    obtain ⟨⟨d₀, version⟩, he, -⟩ := bind_eq_ok_iff.1 h
    have hs : d.startingVersion? = some version := (entry_eq_ok_iff.1 he).1
    have hv := version?_migrate hm hs h
    have hp : pending ⟨S, depth, sort ms⟩ _ = [] := pending_eq_nil hm (le_max_right version _)
    refine ⟨version, hs, hv, hp, fun assets' => ?_⟩
    rw [migrate_of_version? hv, hp]
    rfl
  · intro settings b hb hn d hd
    obtain ⟨_, _, h⟩ := bind_eq_ok_iff.1 hb
    obtain ⟨m, hp, h⟩ := bind_eq_ok_iff.1 h
    obtain rfl := Except.ok.inj h
    obtain ⟨rfl, hm, -⟩ := build_eq_ok_iff_ascending.1 hp
    have hv : d.version? = some (settings.version.getD (latest ⟨S, depth, sort ms⟩)) :=
      version?_of_validate hd
    rw [hn] at hv
    rw [Workbench.pending, hv]
    exact pending_eq_nil (m := ⟨S, depth, sort ms⟩) hm (UInt64.le_refl _)

theorem migrate_reaches_latest_overhaul :
    build Schema.scenes 8 overhaul = .ok overhaulPlan ∧
      overhaulPlan.migrate .empty none = .ok overhauled ∧
      (∃ version, Script.empty.startingVersion? = some version ∧
        overhauled.version? = some (max version overhaulPlan.latest) ∧
        overhaulPlan.pending (max version overhaulPlan.latest) = [] ∧
        ∀ assets, overhaulPlan.migrate overhauled assets = .ok overhauled) ∧
      Workbench.build Schema.scenes 8 overhaul .default =
        .ok ⟨Schema.scenes, overhaulPlan, .default⟩ ∧
      Workbench.pending ⟨Schema.scenes, overhaulPlan, .default⟩ overhauled = [] := by
  have hw : Workbench.build Schema.scenes 8 overhaul .default =
      .ok ⟨Schema.scenes, overhaulPlan, .default⟩ := by cbv
  have h := migrate_reaches_latest Schema.scenes 8 overhaul
  exact ⟨build_overhaul, migrate_overhaul, h.1 _ build_overhaul _ _ _ migrate_overhaul, hw,
    h.2 _ _ hw rfl _ validate_overhauled⟩

/-- The pending migrations are those up to a number, and then those that are pending after them. -/
theorem pending_eq_append (hm : Ascending m.migrations) (k version : UInt64) :
    let early : Plan := { m with migrations := m.migrations.filter fun a => a.num ≤ k }
    m.pending version = early.pending version ++ m.pending (max version early.latest) := by
  intro early
  have hle : early.latest ≤ k := latest_le fun a ha => of_decide_eq_true (List.mem_filter.1 ha).2
  have hlate : (m.migrations.filter fun a => k < a.num).filter (fun a => version < a.num) =
      m.pending (max version early.latest) := by
    rw [List.filter_filter, pending]
    refine List.filter_congr fun a ha => ?_
    rw [← Bool.decide_and, decide_eq_decide, max_lt_iff]
    refine and_congr_right fun _ => ⟨fun hk => UInt64.lt_of_le_of_lt hle hk, fun hlt => ?_⟩
    -- a migration up to `k` is one of the early ones
    by_contra hk
    have hmem : a ∈ early.migrations :=
      List.mem_filter.2 ⟨ha, decide_eq_true (UInt64.not_lt.1 hk)⟩
    have hge : a.num ≤ early.latest := le_latest (m := early) (List.Pairwise.filter _ hm) hmem
    exact UInt64.not_lt.2 hge hlt
  rw [← hlate, pending, pending, ← List.filter_append, hm.filter_append_filter k]

/-- **Migrating in two stages is migrating at once**: first by the migrations up to a number, which
make a plan too, and then by all of them. -/
theorem migrate_after_migrate {S : Schema} {depth : Nat} {ms : List Migration} {m : Plan}
    (h : build S depth ms = .ok m) (k : UInt64) :
    ∃ early, build S depth (ms.filter fun a => a.num ≤ k) = .ok early ∧
      ∀ d assets, (early.migrate d assets >>= fun d' => m.migrate d' assets) =
        m.migrate d assets := by
  obtain ⟨rfl, hm, hk⟩ := build_eq_ok_iff_ascending.1 h
  have hs : sort (ms.filter fun a => a.num ≤ k) = (sort ms).filter fun a => a.num ≤ k :=
    sort_filter hm _
  have hearly : Ascending ((sort ms).filter fun a => a.num ≤ k) := List.Pairwise.filter _ hm
  refine ⟨⟨S, depth, (sort ms).filter fun a => a.num ≤ k⟩, build_eq_ok_iff_ascending.2
    ⟨by rw [hs], hs ▸ hearly, fun a ha => hk a (List.mem_of_mem_filter ha)⟩, fun d assets => ?_⟩
  rw [migrate, migrate]
  rcases he : entry d with e | ⟨d₀, version⟩
  · rfl
  · change (List.foldlM (apply ⟨S, depth, sort ms⟩ assets) d₀ _ >>= _) =
      List.foldlM (apply ⟨S, depth, sort ms⟩ assets) d₀ _
    rw [pending_eq_append (m := ⟨S, depth, sort ms⟩) hm k version, List.foldlM_append]
    rcases hd : List.foldlM (apply ⟨S, depth, sort ms⟩ assets) d₀
      (pending ⟨S, depth, (sort ms).filter fun a => a.num ≤ k⟩ version) with e | d'
    · rfl
    · have hv := version?_foldlM_apply (version?_entry he) hd
      rw [getLast?_pending (m := ⟨S, depth, (sort ms).filter fun a => a.num ≤ k⟩) hearly] at hv
      exact migrate_of_version? hv assets

theorem migrate_after_migrate_overhaul :
    build Schema.scenes 8 overhaul = .ok overhaulPlan ∧
      ∃ early, build Schema.scenes 8 (overhaul.filter fun a => a.num ≤ 2) = .ok early ∧
        ∀ d assets, (early.migrate d assets >>= fun d' => overhaulPlan.migrate d' assets) =
          overhaulPlan.migrate d assets :=
  ⟨build_overhaul, migrate_after_migrate build_overhaul 2⟩

end Plan

end ScriptSchema
