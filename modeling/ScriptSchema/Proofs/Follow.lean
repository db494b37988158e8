import ScriptSchema.Proofs.Located

/-!
# Editing walks and walks that only write

An editing walk takes a value apart, edits the parts and puts the whole together again. If the edit
of each part is what answering at its spots leaves, then so is the edit of the whole. The one
exception is a walk that goes deeper than it may.

* `Editor.Gentle`: editors that leave keys and instances alone;
* `Edit.proceed`: a part, and what follows;
* `Edit.Follows`: an edit is another one, as far as its depth allows;
* **`items_follow`**, **`entries_follow`**, **`declared_follows`**: the whole from its parts;
* `exists_keys_eq_keep`, `exists_ask_eq_keep`: what gentle editors leave alone.
-/

namespace ScriptSchema

variable {σ ε α β : Type}

/-! ## The member after some others -/

theorem getElem?_length_append (before : List α) (a : α) (after : List α) :
    (before ++ a :: after)[before.length]? = some a := by
  rw [List.getElem?_append_right (Nat.le_refl _), Nat.sub_self, List.getElem?_cons_zero]

theorem modify_length_append (before : List α) (a : α) (after : List α) (f : α → α) :
    (before ++ a :: after).modify before.length f = before ++ f a :: after := by
  induction before with
  | nil => rfl
  | cons b before ih =>
    rw [List.cons_append, List.length_cons, List.modify_succ_cons, ih, List.cons_append]

/-! ## Gentle editors -/

/-- The visit is neither of a key nor of an instance, and may be answered with any value. -/
def Visit.Open (visit : Visit) : Prop :=
  visit.onKey = false ∧ ∀ kind info, visit.spec ≠ .component kind info

/-- The editor never fails, and leaves keys and instances of components as they are. Other values it
replaces as it likes. -/
structure Editor.Gentle (editor : Editor σ ε) : Prop where
  error : ∀ visit s, (editor visit s).error = none
  keeps : ∀ visit s, ¬ visit.Open → (editor visit s).value = visit.value

/-- An editor that is gentle wherever it is. -/
def PlacedEditor.Gentle (editor : PlacedEditor σ ε) : Prop :=
  ∀ place owner, Editor.Gentle (editor place owner)

/-- What the editor answers about a part of a script. -/
def PlacedEditor.reply (editor : PlacedEditor σ ε) (f : Finding) (s : σ) : Reply σ ε :=
  editor f.place f.owner f.visit s

/-! ## Edits of parts -/

namespace Edit

/-- Goes on with what an edit left of a part; if that stopped, it is put into the whole. -/
def proceed (x : Edit σ ε α) (whole : α → β) (next : α → σ → Edit σ ε β) : Edit σ ε β :=
  match x.stop with
  | none => next x.value x.state
  | some e => .halt (whole x.value) x.state e

theorem proceed_map {γ : Type} (x : Edit σ ε α) (f : α → β) (whole : β → γ)
    (next : β → σ → Edit σ ε γ) :
    (x.map f).proceed whole next = x.proceed (fun a => whole (f a)) fun a => next (f a) := rfl

theorem map_proceed {γ : Type} (x : Edit σ ε α) (whole : α → β) (next : α → σ → Edit σ ε β)
    (f : β → γ) :
    (x.proceed whole next).map f =
      x.proceed (fun a => f (whole a)) fun a s => (next a s).map f := by
  obtain ⟨a, s, _ | e⟩ := x <;> rfl

theorem andThen_eq_proceed (x : Edit σ ε α) (next : α → σ → Edit σ ε α) :
    x.andThen next = x.proceed id next := by
  obtain ⟨a, s, _ | e⟩ := x <;> rfl

theorem members_cons (f : Nat → α → σ → Edit σ ε α) (index : Nat) (a : α) (as : List α) (s : σ) :
    members f index (a :: as) s =
      (f index a s).proceed (· :: as) fun a s => (members f (index + 1) as s).map (a :: ·) := by
  rw [members, proceed]
  rcases (f index a s).stop with _ | e <;> rfl

theorem members_eq_keep {f : Nat → α → σ → Edit σ ε α} {after : α → σ → σ}
    (h : ∀ i a s, f i a s = keep a (after a s)) (index : Nat) (as : List α) (s : σ) :
    members f index as s = keep as (as.foldl (fun s a => after a s) s) := by
  induction as generalizing index s with
  | nil => rfl
  | cons a as ih =>
    rw [members_cons, h, proceed]
    dsimp only [keep]
    rw [ih]
    rfl

/-- An editor that does not fail is asked to its end. -/
theorem ask_eq_keep {editor : Editor σ ε} {visit : Visit} {s : σ}
    (h : (editor visit s).error = none) :
    ask editor visit s = keep (editor visit s).value (editor visit s).state := by
  rw [ask, h]
  rfl

/-! ## Edits that agree -/

/-- The edit is the other one, or it went deeper than it may; under the condition the other one
does so too. -/
def Follows (b : Prop) (x y : Edit σ ε α) : Prop :=
  x = y ∨ x.stop = some .tooDeep ∧ (b → y.stop = some .tooDeep)

namespace Follows

variable {b b' : Prop} {x y : Edit σ ε α}

theorem refl (x : Edit σ ε α) : x.Follows b x := .inl rfl

theorem mono (h : x.Follows b y) (hb : b' → b) : x.Follows b' y :=
  h.imp_right fun ⟨hx, hy⟩ => ⟨hx, fun hb' => hy (hb hb')⟩

theorem map (h : x.Follows b y) (f : α → β) : (x.map f).Follows b (y.map f) :=
  h.imp_left (congrArg (Edit.map f))

/-- Edits agree if the edits of a part do, and what follows. -/
theorem proceed {whole : α → β} {next next' : α → σ → Edit σ ε β} (h : x.Follows b y)
    (hn : ∀ a s, (next a s).Follows b (next' a s)) :
    (x.proceed whole next).Follows b (y.proceed whole next') := by
  have hstop {z : Edit σ ε α} (hz : z.stop = some .tooDeep) (next : α → σ → Edit σ ε β) :
      (z.proceed whole next).stop = some .tooDeep := by
    rw [Edit.proceed, hz]
    rfl
  obtain rfl | ⟨hx, hy⟩ := h
  · obtain ⟨a, s, _ | e⟩ := x
    · exact hn a s
    · exact refl _
  · exact .inr ⟨hstop hx next, fun hb => hstop (hy hb) next'⟩

end Follows

/-- Editing the members of a value in turn is editing the value at the spots below them. -/
theorem members_follows {b : Prop} (build : List α → Value) (get : α → Value)
    (set : α → Value → α) {reply : β → σ → Reply σ ε}
    (hget : ∀ before a after,
      (build (before ++ a :: after)).child? before.length = some (get a))
    (hset : ∀ before a after w,
      (build (before ++ a :: after)).setChild before.length w = build (before ++ set a w :: after))
    {f : Nat → α → σ → Edit σ ε α} {t : α × Nat → Trace (Spot β)} {as : List α}
    (h : ∀ i, ∀ a ∈ as, ∀ s, (f i a s).Follows b (((t (a, i)).applied reply (get a) s).map (set a)))
    (before : List α) (s : σ) :
    ((members f before.length as s).map fun as' => build (before ++ as')).Follows b
      ((Trace.each (fun m => (t m).map (Spot.below m.2)) (as.zipIdx before.length)).applied reply
        (build (before ++ as)) s) := by
  induction as generalizing before s with
  | nil => exact .refl _
  | cons a as ih =>
    have hrest := ih fun i a ha => h i a (List.mem_cons_of_mem _ ha)
    let rest := Trace.each (fun m => (t m).map (Spot.below m.2)) (as.zipIdx (before.length + 1))
    let whole := fun a' => build (before ++ a' :: as)
    have hset' : (build (before ++ a :: as)).setChild before.length = fun w => whole (set a w) :=
      funext (hset before a as)
    have hy : ((t (a, before.length)).map (Spot.below before.length) ++ rest).applied reply
        (build (before ++ a :: as)) s =
          (((t (a, before.length)).applied reply (get a) s).map (set a)).proceed whole
            fun a' => rest.applied reply (whole a') := by
      rw [Trace.applied_append, Trace.applied_below (hget before a as), hset', andThen_eq_proceed,
        proceed_map, proceed_map]
      rfl
    rw [List.zipIdx_cons, Trace.each, hy, members_cons, map_proceed]
    refine (h before.length a List.mem_cons_self s).proceed fun a' s' => ?_
    have hx := hrest (before ++ [a']) s'
    simp only [List.length_append, List.length_singleton, List.append_assoc,
      List.singleton_append] at hx
    exact hx

/-- Editing the items of an array. -/
theorem items_follow {b : Prop} {reply : β → σ → Reply σ ε} {vs : List Value}
    {f : Nat → Value → σ → Edit σ ε Value} {t : Value × Nat → Trace (Spot β)}
    (h : ∀ i, ∀ v ∈ vs, ∀ s, (f i v s).Follows b ((t (v, i)).applied reply v s)) (s : σ) :
    ((members f 0 vs s).map .array).Follows b
      ((Trace.each (fun m => (t m).map (Spot.below m.2)) vs.zipIdx).applied reply (.array vs) s) := by
  refine members_follows .array id (fun _ w => w) (fun before a after => ?_)
    (fun before a after w => ?_) h [] s
  · exact getElem?_length_append before a after
  · rw [Value.setChild, modify_length_append]

/-- Editing the values of an object. -/
theorem entries_follow {b : Prop} {reply : β → σ → Reply σ ε} {es : Entries Value}
    {f : Nat → String × Value → σ → Edit σ ε (String × Value)}
    {t : (String × Value) × Nat → Trace (Spot β)}
    (h : ∀ i, ∀ e ∈ es, ∀ s, (f i e s).Follows b (((t (e, i)).applied reply e.2 s).map (e.1, ·)))
    (s : σ) :
    ((members f 0 es s).map .object).Follows b
      ((Trace.each (fun m => (t m).map (Spot.below m.2)) es.zipIdx).applied reply (.object es) s) := by
  refine members_follows .object Prod.snd (fun e w => (e.1, w)) (fun before a after => ?_)
    (fun before a after w => ?_) h [] s
  · rw [Value.child?, getElem?_length_append]
    rfl
  · rw [Value.setChild, modify_length_append]

/-- Editing the declared entries of an object. No field is declared twice, so that every entry is
edited as it was at first. -/
theorem declared_follows {b : Prop} {reply : β → σ → Reply σ ε}
    {f : String → Spec → Value → σ → Edit σ ε Value} {t : String × Spec → Value → Trace (Spot β)}
    {es : Entries Value} {fields : Fields} (hd : Entries.Distinct fields)
    (h : ∀ g ∈ fields, ∀ w, es.lookup g.1 = some w → ∀ s,
      (f g.1 g.2 w s).Follows b ((t g w).applied reply w s))
    {now : Entries Value} (hkeys : now.keys = es.keys)
    (hsame : ∀ g ∈ fields, now.lookup g.1 = es.lookup g.1) (s : σ) :
    ((declared f fields now s).map .object).Follows b
      ((Trace.each (fun g => (es.lookup g.1).elim .nil fun w =>
        (t g w).map (Spot.below (es.keys.idxOf g.1))) fields).applied reply (.object now) s) := by
  induction fields generalizing now s with
  | nil => exact .refl _
  | cons g fields ih =>
    obtain ⟨name, spec⟩ := g
    obtain ⟨hname, hd⟩ := List.nodup_cons.1 hd
    have hrest := fun g hg => h g (List.mem_cons_of_mem _ hg)
    have hlookup : now.lookup name = es.lookup name := hsame _ List.mem_cons_self
    rw [declared, Trace.each, hlookup]
    rcases hw : es.lookup name with _ | w
    · rw [Option.elim_none, Trace.nil_append]
      exact ih hd hrest hkeys (fun g hg => hsame g (List.mem_cons_of_mem _ hg)) s
    · have hset : (Value.object now).setChild (es.keys.idxOf name) =
          fun u => .object (now.put name u) := by
        rw [← hkeys]
        exact funext (Value.setChild_of_lookup (hlookup.trans hw))
      have hchild : (Value.object now).child? (es.keys.idxOf name) = some w := by
        rw [← hkeys]
        exact Value.child?_of_lookup (hlookup.trans hw)
      have hmem : name ∈ now.keys :=
        (Entries.has_iff now name).1 (Option.isSome_of_eq_some (hlookup.trans hw))
      dsimp only
      rw [Option.elim_some, Trace.applied_append, Trace.applied_below hchild, hset,
        andThen_eq_proceed, andThen_eq_proceed, map_proceed, proceed_map, proceed_map]
      refine (h (name, spec) List.mem_cons_self w hw s).proceed fun u s' => ?_
      refine ih hd hrest ?_ (fun g hg => ?_) s'
      · rw [Entries.keys_put, if_pos hmem, hkeys]
      · have hne : g.1 ≠ name := ne_of_mem_of_not_mem (List.mem_map_of_mem hg) hname
        rw [Entries.lookup_put, if_neg hne]
        exact hsame g (List.mem_cons_of_mem _ hg)

/-! ## What gentle editors leave alone -/

section Gentle

variable {editor : Editor σ ε} (hg : editor.Gentle)
include hg

/-- Asking about a value is answering at its spot. -/
theorem ask_eq_applied (visit : Visit) (s : σ) :
    ask editor visit s = (Trace.ofList [⟨some [], visit⟩]).applied editor visit.value s :=
  ask_eq_keep (hg.error visit s)

/-- The keys of a dictionary stay, and only the state changes. -/
theorem keys_eq_keep (path : String) (spec : Spec) (es : Entries Value) (s : σ) :
    keys editor path spec es s = .keep es (es.keys.foldl (fun s key =>
      (editor ⟨Path.entry path key, spec, true, .string key⟩ s).state) s) := by
  have hkeep (i : Nat) (key : String) (s : σ) :
      (ask editor ⟨Path.entry path key, spec, true, .string key⟩ s).map (fun v =>
          v.string?.getD key) =
        keep key (editor ⟨Path.entry path key, spec, true, .string key⟩ s).state := by
    have ho : ¬ Visit.Open ⟨Path.entry path key, spec, true, .string key⟩ := fun h => nomatch h.1
    rw [ask_eq_keep (hg.error _ s), hg.keeps _ s ho]
    rfl
  unfold keys
  dsimp only
  rw [members_eq_keep hkeep]
  exact if_pos rfl

/-- Asking about the keys that the focus takes is answering about their visits. -/
theorem exists_keys_eq_keep (focus : Focus) (path : String) (spec : Spec) (es : Entries Value)
    (s : σ) : ∃ s', (if spec.terminal?.any focus.takes then keys editor path spec es s
        else keep es s) = keep es s' ∧
      ∀ v, ((Schema.keyVisits focus path spec es).map (Spot.mk none)).applied editor v s =
        keep v s' := by
  unfold Schema.keyVisits
  by_cases ht : spec.terminal?.any focus.takes = true
  · simp only [if_pos ht]
    refine ⟨_, keys_eq_keep hg path spec es s, fun v => ?_⟩
    rw [Trace.applied, Trace.map, Trace.ofList, Spot.writes_nowhere, List.foldl_map]
    rfl
  · simp only [if_neg ht]
    exact ⟨s, rfl, fun v => rfl⟩

/-- Asking about an instance leaves it, and only the state changes. -/
theorem exists_ask_eq_keep (focus : Focus) (path kind : String) (info : Info) (v : Value)
    (s : σ) : ∃ s',
      (if focus.takesComponent kind then ask editor ⟨path, .component kind info, false, v⟩ s
        else keep v s) = keep v s' ∧
      (if focus.takesComponent kind then
        Trace.ofList [⟨some [], ⟨path, .component kind info, false, v⟩⟩]
        else .nil).applied editor v s = keep v s' := by
  split
  · have hv : (ask editor ⟨path, .component kind info, false, v⟩ s) =
        keep v (editor ⟨path, .component kind info, false, v⟩ s).state := by
      have ho : ¬ Visit.Open ⟨path, .component kind info, false, v⟩ := fun h => h.2 kind info rfl
      rw [ask_eq_keep (hg.error _ s), hg.keeps _ s ho]
    exact ⟨_, hv, by rw [← ask_eq_applied hg, hv]⟩
  · exact ⟨s, rfl, rfl⟩

end Gentle

end Edit

end ScriptSchema
