import Mathlib.Data.List.Basic
import ScriptSchema.Proofs.Distinct
import ScriptSchema.Proofs.Follow

/-!
# Visited parts lie apart

An editor that leaves instances and keys alone replaces values that lie apart from each other, and
apart from all that is visited later. What it is handed is therefore what was there at first, what
it leaves is there in the end, and all else stays.

* `Apart`, `at?_putAt_of_apart`: writing at one way does not matter to another;
* `Spot.Before`: a visit that may be answered with any value lies apart from another;
* **`before_scriptSpots`**: such visits lie apart from all later ones;
* **`at?_writes`**, **`at?_writes_of_apart`**: what writing at all spots leaves.
-/

namespace ScriptSchema

/-! ## Ways apart -/

/-- Neither way leads on from the end of the other. -/
def Apart (way way' : List Nat) : Prop := ¬ way <+: way' ∧ ¬ way' <+: way

theorem Apart.symm {way way' : List Nat} (h : Apart way way') : Apart way' way := And.symm h

theorem apart_cons_of_ne {i j : Nat} (h : i ≠ j) (way way' : List Nat) :
    Apart (i :: way) (j :: way') := by
  constructor
  · exact fun hp => h (List.cons_prefix_cons.1 hp).1
  · exact fun hp => h (List.cons_prefix_cons.1 hp).1.symm

theorem apart_cons_iff {i : Nat} {way way' : List Nat} :
    Apart (i :: way) (i :: way') ↔ Apart way way' := by
  rw [Apart, Apart, List.prefix_cons_inj, List.prefix_cons_inj]

namespace Value

theorem child?_setChild_of_ne (v : Value) {i j : Nat} (h : j ≠ i) (w : Value) :
    (v.setChild j w).child? i = v.child? i := by
  cases v with
  | array vs => exact List.getElem?_modify_ne _ vs h
  | object es => exact congrArg (Option.map Prod.snd) (List.getElem?_modify_ne _ es h)
  | _ => rfl

/-- What is written is there. -/
theorem at?_putAt {v u : Value} {way : List Nat} (h : v.at? way = some u) (w : Value) :
    (v.putAt way w).at? way = some w := by
  induction way generalizing v with
  | nil => rfl
  | cons i way ih =>
    obtain ⟨x, hx, h⟩ := Option.bind_eq_some_iff.1 h
    rw [putAt_cons hx, at?, child?_setChild hx]
    exact ih h

/-- **What lies apart is not changed by writing.** -/
theorem at?_putAt_of_apart {way way' : List Nat} (h : Apart way way') (v w : Value) :
    (v.putAt way' w).at? way = v.at? way := by
  induction way' generalizing v way with
  | nil => exact absurd List.nil_prefix h.2
  | cons j way' ih =>
    rcases hx : v.child? j with _ | x
    · rw [putAt, hx]
    rw [putAt_cons hx]
    cases way with
    | nil => exact absurd List.nil_prefix h.1
    | cons i way =>
      by_cases hij : j = i
      · subst hij
        rw [at?, at?, child?_setChild hx, hx]
        exact ih (apart_cons_iff.1 h) x
      · rw [at?, at?, child?_setChild_of_ne v hij]

end Value

/-! ## Visits that lie apart -/

/-- If the first may be answered with another value, it lies apart from the second. -/
def Spot.Before (x y : Spot Visit) : Prop :=
  ∀ way way', x.way? = some way → y.way? = some way' → x.part.Open → Apart way way'

namespace Trace

variable {α β : Type} {r : α → α → Prop}

theorem pairwise_append {t u : Trace α} (ht : t.seen.Pairwise r) (hu : u.seen.Pairwise r)
    (h : ∀ a ∈ t.seen, ∀ b ∈ u.seen, r a b) : (t ++ u).seen.Pairwise r := by
  rcases he : t.error with _ | e
  · rw [append_of_none he]
    exact List.pairwise_append.2 ⟨ht, hu, h⟩
  · rw [append_of_some he]
    exact ht

theorem pairwise_each {f : β → Trace α} {bs : List β} (h : ∀ b ∈ bs, (f b).seen.Pairwise r)
    (hr : bs.Pairwise fun b c => ∀ x ∈ (f b).seen, ∀ y ∈ (f c).seen, r x y) :
    (each f bs).seen.Pairwise r := by
  induction bs with
  | nil => exact .nil
  | cons b bs ih =>
    rw [List.forall_mem_cons] at h
    obtain ⟨hb, hbs⟩ := List.pairwise_cons.1 hr
    refine pairwise_append h.1 (ih h.2 hbs) fun x hx => ?_
    exact Sees.each fun c hc => hb c hc x hx

end Trace

namespace Spot.Before

variable {x y : Spot Visit}

theorem below (h : x.Before y) (i : Nat) : (x.below i).Before (y.below i) := by
  intro way way' hx hy ho
  obtain ⟨w, hw, rfl⟩ := Option.map_eq_some_iff.1 hx
  obtain ⟨w', hw', rfl⟩ := Option.map_eq_some_iff.1 hy
  exact apart_cons_iff.2 (h w w' hw hw' ho)

theorem of_ne {i j : Nat} (h : i ≠ j) (x y : Spot Visit) : (x.below i).Before (y.below j) := by
  intro way way' hx hy _
  obtain ⟨w, -, rfl⟩ := Option.map_eq_some_iff.1 hx
  obtain ⟨w', -, rfl⟩ := Option.map_eq_some_iff.1 hy
  exact apart_cons_of_ne h w w'

end Spot.Before

/-- What is seen below different children lies apart. -/
theorem Trace.before_each_below {α β : Type} (visit : α → Visit) {f : β → Trace (Spot α)}
    {position : β → Nat} {bs : List β}
    (h : ∀ b ∈ bs, (f b).seen.Pairwise fun x y => (x.map visit).Before (y.map visit))
    (hp : bs.Pairwise fun b c => position b ≠ position c) :
    (each (fun b => (f b).map (Spot.below (position b))) bs).seen.Pairwise fun x y =>
      (x.map visit).Before (y.map visit) := by
  refine pairwise_each (fun b hb => ?_) (hp.imp fun {b c} hne x hx y hy => ?_)
  · exact List.pairwise_map.2 ((h b hb).imp fun hxy => hxy.below (position b))
  · obtain ⟨x, -, rfl⟩ := List.mem_map.1 hx
    obtain ⟨y, -, rfl⟩ := List.mem_map.1 hy
    exact .of_ne hne (x.map visit) (y.map visit)

theorem pairwise_lt_zipIdx {α : Type} (as : List α) :
    as.zipIdx.Pairwise fun m n => m.2 < n.2 := by
  have h : (as.zipIdx.map Prod.snd).Pairwise (· < ·) := by
    rw [List.zipIdx_map_snd]
    exact List.pairwise_lt_range'
  exact List.pairwise_map.1 h

theorem pairwise_zipIdx {α : Type} (as : List α) :
    as.zipIdx.Pairwise fun m n => m.2 ≠ n.2 :=
  (pairwise_lt_zipIdx as).imp Nat.ne_of_lt

namespace Schema

variable {S : Schema}

theorem before_descent (hS : S.Distinct) (focus : Focus) :
    S.Descent
      (fun present spec v => spec.Distinct → ∀ path,
        (S.spotsWhile focus present path spec v).seen.Pairwise Spot.Before)
      (fun present fields v => (Spec.object fields .plain).Distinct → ∀ path,
        (S.fieldSpotsWhile focus present path fields v).seen.Pairwise Spot.Before) where
  terminal present t info v _ path := by
    rw [spotsWhile_terminal]
    split
    · exact List.pairwise_singleton _ _
    · exact .nil
  list present items info v ih hd path := by
    rw [spotsWhile_list_eq]
    rcases hv : v.array? with _ | vs
    · exact .nil
    · refine Trace.before_each_below id (fun m hm => ?_) (pairwise_zipIdx vs)
      exact ih vs hv m.1 (List.fst_mem_of_mem_zipIdx hm) hd _
  dictionary present keys values info v ih hd path := by
    rw [spotsWhile_dictionary_eq]
    rcases hv : v.object? with _ | es
    · exact .nil
    · refine Trace.pairwise_append (List.pairwise_map.2 ?_) ?_ fun x hx y _ => ?_
      · exact List.pairwise_of_forall fun a b way way' h => nomatch h
      · refine Trace.before_each_below id (fun m hm => ?_) (pairwise_zipIdx es)
        exact (ih es hv m.1 (List.fst_mem_of_mem_zipIdx hm)).2 hd.2 _
      · obtain ⟨a, -, rfl⟩ := List.mem_map.1 hx
        exact fun way way' h => nomatch h
  object present fields info v ih hd path := by
    rw [spotsWhile_object]
    exact ih hd path
  component present kind info v ih hd path := by
    rw [spotsWhile_component_eq]
    refine Trace.pairwise_append ?_ ?_ fun x hx y _ way way' _ _ ho => ?_
    · split
      · exact List.pairwise_singleton _ _
      · exact .nil
    · rcases hc : S.components.find? kind with _ | c
      · exact .nil
      dsimp only
      split
      · split
        · exact .nil
        · rename_i hk
          exact ih c hc hk _ (hS.classAt hc v) path
      · exact .nil
    · -- an instance that is visited is left as it is
      split at hx
      · obtain rfl := List.mem_singleton.1 hx
        exact absurd rfl (ho.2 kind info)
      · nomatch hx
  fields present fields v lone parts hd path := by
    rw [fieldSpotsWhile_eq]
    rcases hl : fields.lone? with _ | spec
    · dsimp only
      rcases hv : v.object? with _ | es
      · exact .nil
      · have hnames : fields.Pairwise fun f g => f.1 ≠ g.1 := List.pairwise_map.1 hd.1
        refine Trace.pairwise_each (fun f hf => ?_) (hnames.imp fun {f g} hne x hx y hy => ?_)
        · rcases hw : es.lookup f.1 with _ | w
          · exact .nil
          · have hp := parts es hv f hf w hw (Spec.eachDistinct_iff.1 hd.2 f hf)
              (Path.field path f.1)
            exact List.pairwise_map.2 (hp.imp fun hxy => hxy.below _)
        · rcases hw : es.lookup f.1 with _ | w
          · rw [hw] at hx
            nomatch hx
          rcases hw' : es.lookup g.1 with _ | w'
          · rw [hw'] at hy
            nomatch hy
          rw [hw] at hx
          rw [hw'] at hy
          obtain ⟨x, -, rfl⟩ := List.mem_map.1 hx
          obtain ⟨y, -, rfl⟩ := List.mem_map.1 hy
          have hmem : f.1 ∈ es.keys := (es.has_iff f.1).1 (Option.isSome_of_eq_some hw)
          exact .of_ne (fun h => hne ((List.idxOf_inj hmem).1 h)) x y
    · exact lone spec hl (hd.lone hl) path

/-- **What may be replaced in a script lies apart from all that is visited later.** -/
theorem before_scriptSpots (hS : S.Distinct) (focus : Focus) (d : Script) :
    (S.scriptSpots focus d).seen.Pairwise fun x y =>
      (x.map Finding.visit).Before (y.map Finding.visit) := by
  refine Trace.before_each_below Finding.visit (fun m _ => ?_) (pairwise_zipIdx d.entries)
  unfold entrySpots
  split
  · exact .nil
  split
  · rename_i type c vs hc hv
    refine Trace.before_each_below Finding.visit (fun m _ => ?_) (pairwise_zipIdx vs)
    have hd := hS c (S.describes_of_resourceFor hc)
    exact List.pairwise_map.2 ((before_descent hS focus).fieldsOf [] c.fields m.1 hd "")
  · exact .nil

end Schema

/-! ## What writing leaves -/

namespace Spot

variable {α σ ε : Type} {visit : α → Visit} {reply : α → σ → Reply σ ε}

/-- Answering with what is there changes nothing. -/
theorem write_of_eq {v : Value} {x : Spot α} (hx : (x.map visit).Lies v) {s : σ}
    (h : (reply x.part s).value = (visit x.part).value) : (write reply (v, s) x).1 = v := by
  obtain ⟨_ | way, a⟩ := x
  · rfl
  · change v.putAt way (reply a s).value = v
    rw [h]
    exact Value.putAt_at? hx.2

theorem writes_of_eq (h : ∀ a s, (reply a s).value = (visit a).value) {v : Value}
    {xs : List (Spot α)} (hl : ∀ x ∈ xs, (x.map visit).Lies v) (s : σ) :
    (writes reply xs v s).1 = v := by
  induction xs generalizing s with
  | nil => rfl
  | cons x xs ih =>
    obtain ⟨hx, hxs⟩ := List.forall_mem_cons.1 hl
    have hv : (write reply (v, s) x).1 = v := write_of_eq hx (h x.part s)
    have hrest := ih hxs (write reply (v, s) x).2
    rw [← hv] at hrest
    exact hrest.trans hv

variable (hkeep : ∀ a s, ¬ (visit a).Open → (reply a s).value = (visit a).value)
include hkeep

theorem write_of_not_open {v : Value} {x : Spot α} (hx : (x.map visit).Lies v)
    (ho : ¬ (visit x.part).Open) (s : σ) : (write reply (v, s) x).1 = v :=
  write_of_eq hx (hkeep x.part s ho)

/-- What is visited later lies where it lay. -/
theorem lies_write {v : Value} {x y : Spot α} (hx : (x.map visit).Lies v)
    (hy : (y.map visit).Lies v) (hxy : (x.map visit).Before (y.map visit)) (s : σ) :
    (y.map visit).Lies (write reply (v, s) x).1 := by
  by_cases ho : (visit x.part).Open
  · obtain ⟨_ | way, a⟩ := x
    · exact hy
    obtain ⟨_ | way', b⟩ := y
    · exact hy
    refine ⟨hy.1, ?_⟩
    have hap : Apart way way' := hxy way way' rfl rfl ho
    exact (Value.at?_putAt_of_apart hap.symm v (reply a s).value).trans hy.2
  · rw [write_of_not_open hkeep hx ho]
    exact hy

/-- **What lies apart from all that may be replaced stays.** -/
theorem at?_writes_of_apart {v : Value} {xs : List (Spot α)}
    (hl : ∀ x ∈ xs, (x.map visit).Lies v)
    (hp : xs.Pairwise fun x y => (x.map visit).Before (y.map visit)) {way : List Nat}
    (h : ∀ x ∈ xs, ∀ way', x.way? = some way' → (visit x.part).Open → Apart way way') (s : σ) :
    (writes reply xs v s).1.at? way = v.at? way := by
  induction xs generalizing v s with
  | nil => rfl
  | cons x xs ih =>
    obtain ⟨hx, hxs⟩ := List.forall_mem_cons.1 hl
    obtain ⟨hbefore, hp⟩ := List.pairwise_cons.1 hp
    obtain ⟨hway, h⟩ := List.forall_mem_cons.1 h
    have hrest := ih (fun y hy => lies_write hkeep hx (hxs y hy) (hbefore y hy) s) hp h
      (write reply (v, s) x).2
    refine hrest.trans ?_
    by_cases ho : (visit x.part).Open
    · obtain ⟨_ | way', a⟩ := x
      · rfl
      · exact Value.at?_putAt_of_apart (hway way' rfl ho) v (reply a s).value
    · rw [write_of_not_open hkeep hx ho]

/-- **What is left at a visit that may be answered with another value is there in the end.** -/
theorem at?_writes {v : Value} {before after : List (Spot α)} {x : Spot α}
    (hl : ∀ y ∈ before ++ x :: after, (y.map visit).Lies v)
    (hp : (before ++ x :: after).Pairwise fun x y => (x.map visit).Before (y.map visit))
    {way : List Nat} (hway : x.way? = some way) (ho : (visit x.part).Open) (s : σ) :
    (writes reply (before ++ x :: after) v s).1.at? way =
      some (reply x.part (writes reply before v s).2).value := by
  induction before generalizing v s with
  | nil =>
    obtain ⟨hx, hafter⟩ := List.forall_mem_cons.1 hl
    obtain ⟨hbefore, hp⟩ := List.pairwise_cons.1 hp
    have hrest := at?_writes_of_apart hkeep
      (fun y hy => lies_write hkeep hx (hafter y hy) (hbefore y hy) s) hp
      (fun y hy way' hy' _ => hbefore y hy way way' hway hy' ho) (write reply (v, s) x).2
    refine hrest.trans ?_
    obtain ⟨_ | way', a⟩ := x
    · nomatch hway
    · obtain rfl := Option.some.inj hway
      exact Value.at?_putAt hx.2 (reply a s).value
  | cons y before ih =>
    obtain ⟨hy, hrest⟩ := List.forall_mem_cons.1 hl
    obtain ⟨hbefore, hp⟩ := List.pairwise_cons.1 hp
    exact ih (fun z hz => lies_write hkeep hy (hrest z hz) (hbefore z hz) s) hp
      (write reply (v, s) y).2

end Spot

end ScriptSchema
