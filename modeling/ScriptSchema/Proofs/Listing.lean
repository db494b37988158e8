import Mathlib.Data.List.Duplicate
import ScriptSchema.Proofs.Upgrade

/-!
# The order in which migrations are listed

A plan is built from migrations in any order. Of migrations with the same number the one that is
listed first stays first when they are sorted, but those make no plan; and what is wrong with
migrations is told by their numbers and steps alone.

* `Migration.Repeats`, `Migration.LeastRepeated`: numbers that migrations share;
* **`repeated?_sort_eq_some_iff`**: the number that is blamed;
* `Migration.FirstUnknown`, **`exists_firstUnknown`**: the first step, by the order of the numbers,
  that names no component;
* `sort_eq_of_perm`: the same migrations, listed in another order;
* `Plan.BuildsAlike`, **`build_of_perm`**: they make the same plan, or are refused alike.
-/

namespace ScriptSchema

namespace Migration

variable {S : Schema} {ms ms' : List Migration} {n : UInt64} {kind : String}

/-! ## Numbers that repeat -/

/-- At least two of the migrations have this number. -/
def Repeats (ms : List Migration) (n : UInt64) : Prop := (ms.map Migration.num).Duplicate n

/-- The smallest number that repeats. -/
structure LeastRepeated (ms : List Migration) (n : UInt64) : Prop where
  repeats : Repeats ms n
  least : ∀ k, Repeats ms k → n ≤ k

theorem Repeats.exists_mem (h : Repeats ms n) : ∃ a ∈ ms, a.num = n := List.mem_map.1 h.mem

theorem repeats_iff_of_perm (h : ms.Perm ms') : Repeats ms n ↔ Repeats ms' n := by
  unfold Repeats
  rw [List.duplicate_iff_two_le_count, List.duplicate_iff_two_le_count,
    (h.map Migration.num).count_eq]

theorem LeastRepeated.of_perm (hn : LeastRepeated ms n) (h : ms.Perm ms') :
    LeastRepeated ms' n where
  repeats := (repeats_iff_of_perm h).1 hn.repeats
  least k hk := hn.least k ((repeats_iff_of_perm h).2 hk)

theorem forall_not_repeats_iff : (∀ n, ¬ Repeats ms n) ↔ (ms.map Migration.num).Nodup :=
  List.nodup_iff_forall_not_duplicate.symm

/-- The first number that two sorted migrations next to each other share is the smallest that
repeats. -/
theorem leastRepeated_of_repeated? (h : ms.Pairwise fun a b => a.num ≤ b.num)
    (hn : repeated? ms = some n) : LeastRepeated ms n := by
  fun_induction repeated? ms with
  | case1 a b ms hab =>
    obtain rfl := Option.some.inj hn
    have hb : a.num ∈ (b :: ms).map Migration.num :=
      List.mem_map.2 ⟨b, List.mem_cons_self, hab.symm⟩
    refine ⟨List.Duplicate.cons_mem hb, fun k hk => ?_⟩
    obtain ⟨c, hc, rfl⟩ := hk.exists_mem
    rcases List.mem_cons.1 hc with rfl | hc
    · exact UInt64.le_refl _
    · exact (List.pairwise_cons.1 h).1 c hc
  | case2 a b ms hab ih =>
    obtain ⟨ha, hms⟩ := List.pairwise_cons.1 h
    have hrest := ih hms hn
    refine ⟨List.Duplicate.cons_duplicate hrest.repeats, fun k hk => ?_⟩
    rcases List.duplicate_cons_iff.1 hk with ⟨hka, hmem⟩ | hk
    · -- the first number is below the second, so that it does not come again
      obtain ⟨c, hc, hck⟩ := List.mem_map.1 hmem
      have hlt : a.num < b.num := UInt64.lt_of_le_of_ne (ha b List.mem_cons_self) hab
      have hbc : b.num ≤ c.num := by
        rcases List.mem_cons.1 hc with rfl | hc
        · exact UInt64.le_refl _
        · exact (List.pairwise_cons.1 hms).1 c hc
      rw [hck, ← hka] at hbc
      exact absurd hlt (UInt64.not_lt.2 hbc)
    · exact hrest.least k hk
  | case3 => nomatch hn

/-- If no number is blamed, none repeats. -/
theorem not_repeats_of_repeated? (hn : repeated? (sort ms) = none) (n : UInt64) :
    ¬ Repeats ms n := by
  have hnodup := ((repeated?_eq_none_iff_ascending (sort_pairwise ms)).1 hn).nodup
  rw [← repeats_iff_of_perm (sort_perm ms)]
  exact forall_not_repeats_iff.2 hnodup n

/-- **The number that is blamed is the smallest that repeats.** -/
theorem repeated?_sort_eq_some_iff : repeated? (sort ms) = some n ↔ LeastRepeated ms n := by
  have hleast {k : UInt64} (hk : repeated? (sort ms) = some k) : LeastRepeated ms k :=
    (leastRepeated_of_repeated? (sort_pairwise ms) hk).of_perm (sort_perm ms)
  refine ⟨hleast, fun h => ?_⟩
  rcases hk : repeated? (sort ms) with _ | k
  · exact absurd h.repeats (not_repeats_of_repeated? hk n)
  · have hkn : k ≤ n := (hleast hk).least n h.repeats
    have hnk : n ≤ k := h.least k (hleast hk).repeats
    rw [UInt64.le_antisymm hkn hnk]

/-! ## Kinds that are not registered -/

/-- The component steps have a component. -/
def KnowsKinds (S : Schema) (steps : List Step) : Prop :=
  ∀ kind change, Step.component kind change ∈ steps → S.Registers kind

/-- The migration has a step for a kind that is not registered, and no step before it does: none of
its own and none of a migration with a lower number. -/
structure FirstUnknown (S : Schema) (ms : List Migration) (a : Migration) (kind : String) :
    Prop where
  mem : a ∈ ms
  unknown : ¬ S.Registers kind
  step : ∃ before change after,
    a.steps = before ++ .component kind change :: after ∧ KnowsKinds S before
  earlier : ∀ b ∈ ms, b.num < a.num → KnowsKinds S b.steps

theorem knowsKinds_of_unknownKind? {a : Migration} (h : unknownKind? S [a] = none) :
    KnowsKinds S a.steps :=
  unknownKind?_eq_none_iff.1 h a List.mem_cons_self

theorem unknownKind?_cons (a : Migration) (ms : List Migration) :
    unknownKind? S (a :: ms) = (unknownKind? S [a]).or (unknownKind? S ms) := by
  unfold unknownKind?
  rw [List.flatMap_cons, List.findSome?_append, List.flatMap_singleton]

/-- What the steps of one migration are blamed for. -/
theorem exists_step_of_unknownKind? {a : Migration} (h : unknownKind? S [a] = some kind) :
    ¬ S.Registers kind ∧ ∃ before change after,
      a.steps = before ++ .component kind change :: after ∧ KnowsKinds S before := by
  unfold unknownKind? at h
  rw [List.flatMap_singleton] at h
  obtain ⟨before, step, after, hs, hstep, hbefore⟩ := List.findSome?_eq_some_iff.1 h
  have hknows : KnowsKinds S before := by
    refine knowsKinds_of_unknownKind? (a := { a with steps := before }) ?_
    unfold unknownKind?
    rw [List.flatMap_singleton]
    exact List.findSome?_eq_none_iff.2 hbefore
  cases step with
  | component k change =>
    dsimp only at hstep
    split at hstep
    · rename_i hk
      obtain rfl := Option.some.inj hstep
      refine ⟨fun hr => ?_, before, change, after, hs, hknows⟩
      rw [Schema.Registers, ← Option.not_isNone, hk] at hr
      exact Bool.false_ne_true hr
    · cases hstep
  | script change | collection name change => cases hstep

/-- **The kind that is blamed is that of the first step without a component**, by the order of the
numbers. -/
theorem exists_firstUnknown (h : Ascending ms) (hk : unknownKind? S ms = some kind) :
    ∃ a, FirstUnknown S ms a kind := by
  induction ms with
  | nil => nomatch hk
  | cons a ms ih =>
    obtain ⟨ha, hms⟩ := List.pairwise_cons.1 h
    rw [unknownKind?_cons] at hk
    rcases hhead : unknownKind? S [a] with _ | k
    · rw [hhead, Option.none_or] at hk
      obtain ⟨b, hb⟩ := ih hms hk
      refine ⟨b, List.mem_cons_of_mem _ hb.mem, hb.unknown, hb.step, fun c hc hlt => ?_⟩
      rcases List.mem_cons.1 hc with rfl | hc
      · exact knowsKinds_of_unknownKind? hhead
      · exact hb.earlier c hc hlt
    · rw [hhead, Option.some_or] at hk
      obtain rfl := Option.some.inj hk
      obtain ⟨hu, hstep⟩ := exists_step_of_unknownKind? hhead
      refine ⟨a, List.mem_cons_self, hu, hstep, fun c hc hlt => ?_⟩
      -- no number is lower than the first
      rcases List.mem_cons.1 hc with rfl | hc
      · exact absurd hlt (UInt64.lt_irrefl _)
      · exact absurd (ha c hc) (UInt64.not_lt.2 (UInt64.le_of_lt hlt))

theorem FirstUnknown.of_perm {a : Migration} (hk : FirstUnknown S ms a kind)
    (h : ms.Perm ms') : FirstUnknown S ms' a kind :=
  { hk with
    mem := h.mem_iff.1 hk.mem
    earlier := fun b hb => hk.earlier b (h.mem_iff.2 hb) }

/-! ## The same migrations in another order -/

/-- If no number repeats, sorting forgets the order. -/
theorem sort_eq_of_perm (h : ms.Perm ms') (hn : ∀ n, ¬ Repeats ms n) : sort ms = sort ms' := by
  have hperm : (sort ms).Perm (sort ms') := (sort_perm ms).trans (h.trans (sort_perm ms').symm)
  have hnodup : ((sort ms).map Migration.num).Nodup :=
    ((sort_perm ms).map Migration.num).nodup_iff.2 (forall_not_repeats_iff.1 hn)
  exact eq_of_perm hperm hnodup (sort_pairwise ms) (sort_pairwise ms')

end Migration

namespace Plan

open Migration

/-- Two lists of migrations make the same plan, with all that comes of it, or are refused for the
same reason. -/
inductive BuildsAlike (S : Schema) (depth : Nat) (ms ms' : List Migration) : Prop where
  /-- No number repeats and every kind is registered. -/
  | plan (m : Plan) (hm : m.migrations.Perm ms) (ha : Ascending m.migrations)
    (hk : ∀ a ∈ ms, KnowsKinds S a.steps)
    (h : build S depth ms = .ok m) (h' : build S depth ms' = .ok m)
  /-- The smallest number that repeats is blamed, whatever else is wrong. -/
  | repeated (n : UInt64) (hn : LeastRepeated ms n)
    (h : build S depth ms = .error (.repeatedNumber n))
    (h' : build S depth ms' = .error (.repeatedNumber n))
  /-- The first kind that is not registered is blamed. -/
  | unknown (a : Migration) (kind : String) (hn : ∀ n, ¬ Repeats ms n)
    (hk : FirstUnknown S ms a kind)
    (h : build S depth ms = .error (.schema (.unknownComponent kind)))
    (h' : build S depth ms' = .error (.schema (.unknownComponent kind)))

theorem build_of_repeated {S : Schema} {depth : Nat} {ms : List Migration} {n : UInt64}
    (h : LeastRepeated ms n) : build S depth ms = .error (.repeatedNumber n) := by
  rw [build, repeated?_sort_eq_some_iff.2 h]

/-- **The order in which migrations are listed does not matter**: neither for the plan that they
make nor for the reason why they make none. -/
theorem build_of_perm (S : Schema) (depth : Nat) {ms ms' : List Migration} (h : ms.Perm ms') :
    BuildsAlike S depth ms ms' := by
  rcases hn : repeated? (sort ms) with _ | n
  · have hrep := not_repeats_of_repeated? hn
    have hsort : sort ms = sort ms' := sort_eq_of_perm h hrep
    have hsame : build S depth ms' = build S depth ms := by rw [build, build, hsort]
    have hasc : Ascending (sort ms) :=
      (repeated?_eq_none_iff_ascending (sort_pairwise ms)).1 hn
    rcases hk : unknownKind? S (sort ms) with _ | kind
    · have hb : build S depth ms = .ok ⟨S, depth, sort ms⟩ := by rw [build, hn, hk]
      refine .plan _ (sort_perm ms) hasc (fun a ha => ?_) hb (hsame.trans hb)
      exact unknownKind?_eq_none_iff.1 hk a (mem_sort.2 ha)
    · have hb : build S depth ms = .error (.schema (.unknownComponent kind)) := by
        rw [build, hn, hk]
      obtain ⟨a, ha⟩ := exists_firstUnknown hasc hk
      exact .unknown a kind hrep (ha.of_perm (sort_perm ms)) hb (hsame.trans hb)
  · have hleast := repeated?_sort_eq_some_iff.1 hn
    exact .repeated n hleast (build_of_repeated hleast) (build_of_repeated (hleast.of_perm h))

/-- Two numbers repeat, the higher one first, and a kind is not registered. -/
def clash : List Migration :=
  let idle : Transform Value := fun w v => ⟨v, w.scratch, .queues [], none⟩
  [⟨4, "panels", [.component "panel" fun _ => idle], []⟩,
    ⟨4, "cues", [.component "cue" fun _ => idle], []⟩,
    ⟨2, "scenes", [.collection "scenes" idle], []⟩,
    ⟨2, "again", [.collection "scenes" idle], []⟩]

theorem build_of_perm_clash :
    clash.Perm clash.reverse ∧ BuildsAlike Schema.scenes 8 clash clash.reverse :=
  have h : clash.Perm clash.reverse := (List.reverse_perm clash).symm
  ⟨h, build_of_perm Schema.scenes 8 h⟩

example : build Schema.scenes 8 clash = .error (.repeatedNumber 2) := by cbv

-- with numbers that differ, the step that is blamed is the first by number
example : build Schema.scenes 8 [clash[0], clash[2]] =
    .error (.schema (.unknownComponent "panel")) := by cbv

end Plan

end ScriptSchema
