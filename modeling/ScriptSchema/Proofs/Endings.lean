import ScriptSchema.Proofs.InPlace

/-!
# Editing walks that come to an end

An editing walk goes by what its editor leaves, and the depth only says when to give up. That the
walk comes to an end is therefore said of all depths at once: from some depth on it is the same, and
does not stop early. The end of the whole is put together from the ends of its parts, and so is what
the walk leaves.

* `Edit.Ends`: an edit comes to an end, and what it leaves;
* `Ends.proceed`, `Ends.members`: the whole from its parts;
* `Entries.Touched`, `Ends.declared`: an object whose declared entries have been edited;
* `Edit.stop_proceed`, `Edit.stop_members`, `Edit.stop_declared`: the parts of an edit that did not
  stop;
* `Schema.EditEnds`: the editing walk through a value comes to an end;
* **`editEnds_list`**, **`editEnds_dictionary`**, **`editEnds_object`**, **`editEnds_component`**:
  level by level;
* `Schema.Collects`: the entries of a script that a walk goes through.
-/

namespace ScriptSchema

variable {σ ε α β : Type}

/-- The entries that the fields declare are related to what they were, and the others are what they
were. -/
structure Entries.Touched (es : Entries Value) (fields : Fields) (r : Spec → Value → Value → Prop)
    (touched : Entries Value) : Prop where
  declared : ∀ f ∈ fields, Option.Rel (r f.2) (es.lookup f.1) (touched.lookup f.1)
  other : ∀ name, name ∉ Entries.keys fields → touched.lookup name = es.lookup name

namespace Edit

/-- From some depth on, an edit goes to its end and is the same. It leaves what `q` says, in a state
as `i` says. -/
def Ends (q : α → Prop) (i : σ → Prop) (x : Nat → Edit σ ε α) : Prop :=
  ∃ n a s, q a ∧ i s ∧ ∀ depth, n ≤ depth → x depth = keep a s

namespace Ends

variable {q : α → Prop} {r : β → Prop} {i : σ → Prop} {x : Nat → Edit σ ε α} {s : σ}

theorem keep {a : α} (ha : q a) (hs : i s) : Ends q i fun _ => (Edit.keep a s : Edit σ ε α) :=
  ⟨0, a, s, ha, hs, fun _ _ => rfl⟩

theorem map (h : Ends q i x) {f : α → β} (hf : ∀ a, q a → r (f a)) :
    Ends r i fun depth => (x depth).map f := by
  obtain ⟨n, a, s, ha, hs, hx⟩ := h
  exact ⟨n, f a, s, hf a ha, hs, fun depth hn => congrArg (Edit.map f) (hx depth hn)⟩

theorem mono (h : Ends q i x) {p : α → Prop} (hq : ∀ a, q a → p a) : Ends p i x :=
  h.map (f := id) hq

/-- One level more or less makes no difference. -/
theorem deeper_iff : Ends q i (fun depth => x (depth + 1)) ↔ Ends q i x := by
  constructor
  · rintro ⟨n, a, s, ha, hs, hx⟩
    refine ⟨n + 1, a, s, ha, hs, fun depth hn => ?_⟩
    obtain ⟨k, rfl⟩ := Nat.exists_eq_add_of_le hn
    rw [Nat.add_right_comm]
    exact hx (n + k) (Nat.le_add_right n k)
  · rintro ⟨n, a, s, ha, hs, hx⟩
    exact ⟨n, a, s, ha, hs, fun depth hn => hx (depth + 1) (Nat.le_succ_of_le hn)⟩

/-- An edit comes to an end if the edit of a part does, and what follows. -/
theorem proceed {whole : α → β} {next : Nat → α → σ → Edit σ ε β} (h : Ends q i x)
    (hn : ∀ a s, q a → i s → Ends r i fun depth => next depth a s) :
    Ends r i fun depth => (x depth).proceed whole (next depth) := by
  obtain ⟨n, a, s, ha, hs, hx⟩ := h
  obtain ⟨m, b, t, hb, ht, hy⟩ := hn a s ha hs
  refine ⟨max n m, b, t, hb, ht, fun depth hle => ?_⟩
  have hpart := hx depth (Nat.le_trans (Nat.le_max_left n m) hle)
  have hrest := hy depth (Nat.le_trans (Nat.le_max_right n m) hle)
  exact (congrArg (fun x => Edit.proceed x whole (next depth)) hpart).trans hrest

theorem andThen {p : α → Prop} {next : Nat → α → σ → Edit σ ε α} (h : Ends q i x)
    (hn : ∀ a s, q a → i s → Ends p i fun depth => next depth a s) :
    Ends p i fun depth => (x depth).andThen (next depth) := by
  simp only [andThen_eq_proceed]
  exact h.proceed hn

/-- The members of a list are edited one by one. -/
theorem members {q : α → α → Prop} {f : Nat → Nat → α → σ → Edit σ ε α} {as : List α}
    (h : ∀ index, ∀ a ∈ as, ∀ s, i s → Ends (q a) i fun depth => f depth index a s) (index : Nat)
    (hs : i s) : Ends (List.Forall₂ q as) i fun depth => Edit.members (f depth) index as s := by
  induction as generalizing index s with
  | nil => exact keep .nil hs
  | cons a as ih =>
    simp only [members_cons]
    refine (h index a List.mem_cons_self s hs).proceed fun b s hb hs => ?_
    have hrest := ih (fun index a ha => h index a (List.mem_cons_of_mem _ ha)) (index + 1) hs
    exact hrest.map fun bs hbs => .cons hb hbs

/-- The declared entries are edited one by one. No field is declared twice, so that every entry is
edited as it was at first. -/
theorem declared {r : Spec → Value → Value → Prop}
    {f : Nat → String → Spec → Value → σ → Edit σ ε Value} {fields : Fields}
    (hd : Entries.Distinct fields) {es : Entries Value}
    (h : ∀ g ∈ fields, ∀ w, es.lookup g.1 = some w → ∀ s, i s →
      Ends (r g.2 w) i fun depth => f depth g.1 g.2 w s) (hs : i s) :
    Ends (es.Touched fields r) i fun depth => Edit.declared (f depth) fields es s := by
  induction fields generalizing es s with
  | nil => exact keep ⟨nofun, fun _ _ => rfl⟩ hs
  | cons g fields ih =>
    obtain ⟨name, spec⟩ := g
    obtain ⟨hname, hd⟩ := List.nodup_cons.1 hd
    have hkeys {key : String} : key ∉ Entries.keys ((name, spec) :: fields) ↔
        key ≠ name ∧ key ∉ Entries.keys fields := List.mem_cons.not.trans not_or
    simp only [Edit.declared]
    rcases hw : es.lookup name with _ | w
    · have hrest := ih hd (fun g hg => h g (List.mem_cons_of_mem _ hg)) hs
      refine hrest.mono fun touched ht => ⟨List.forall_mem_cons.2 ⟨?_, ht.declared⟩, ?_⟩
      · rw [ht.other name hname, hw]
        exact .none
      · exact fun key hk => ht.other key (hkeys.1 hk).2
    · have hw' := h (name, spec) List.mem_cons_self w hw s hs
      refine (hw'.map (r := fun es' => ∃ u, r spec w u ∧ es' = es.put name u)
        fun u hu => ⟨u, hu, rfl⟩).andThen ?_
      rintro _ s ⟨u, hu, rfl⟩ hs
      have hput {key : String} (hk : key ≠ name) : (es.put name u).lookup key = es.lookup key := by
        rw [Entries.lookup_put, if_neg hk]
      have hne (g : String × Spec) (hg : g ∈ fields) : g.1 ≠ name :=
        ne_of_mem_of_not_mem (List.mem_map_of_mem hg) hname
      have hparts (g : String × Spec) (hg : g ∈ fields) (w : Value)
          (hw : (es.put name u).lookup g.1 = some w) :=
        h g (List.mem_cons_of_mem _ hg) w (hput (hne g hg) ▸ hw)
      have hrest := ih hd hparts hs
      refine hrest.mono fun touched ht =>
        ⟨List.forall_mem_cons.2 ⟨?_, fun g hg => hput (hne g hg) ▸ ht.declared g hg⟩, ?_⟩
      · rw [ht.other name hname, Entries.lookup_put, if_pos rfl, hw]
        exact .some hu
      · intro key hk
        rw [ht.other key (hkeys.1 hk).2, hput (hkeys.1 hk).1]

end Ends

/-! ### The parts of an edit that did not stop -/

section Parts

variable {i : σ → Prop} {s : σ}

theorem state_members {f : Nat → α → σ → Edit σ ε α} {as : List α}
    (hi : ∀ index, ∀ a ∈ as, ∀ s, i s → i (f index a s).state) {index : Nat} (hs : i s) :
    i (members f index as s).state := by
  induction as generalizing index s with
  | nil => exact hs
  | cons a as ih =>
    have ha := hi index a List.mem_cons_self s hs
    rw [members_cons, proceed]
    split
    · exact ih (fun index b hb => hi index b (List.mem_cons_of_mem _ hb)) ha
    · exact ha

/-- An edit that goes to its end has done so with the part, and with what follows. -/
theorem stop_proceed {x : Edit σ ε α} {whole : α → β} {next : α → σ → Edit σ ε β}
    (h : (x.proceed whole next).stop = none) :
    x.stop = none ∧ (next x.value x.state).stop = none := by
  unfold proceed at h
  split at h
  · rename_i hx
    exact ⟨hx, h⟩
  · cases h

theorem stop_members {f : Nat → α → σ → Edit σ ε α} {as : List α}
    (hi : ∀ index, ∀ a ∈ as, ∀ s, i s → i (f index a s).state) {index : Nat} (hs : i s)
    (h : (members f index as s).stop = none) :
    ∀ a ∈ as, ∃ index s, i s ∧ (f index a s).stop = none := by
  induction as generalizing index s with
  | nil => exact nofun
  | cons a as ih =>
    rw [members_cons] at h
    obtain ⟨hx, h⟩ := stop_proceed h
    have hrest := ih (fun index b hb => hi index b (List.mem_cons_of_mem _ hb))
      (hi index a List.mem_cons_self s hs) h
    exact List.forall_mem_cons.2 ⟨⟨index, s, hs, hx⟩, hrest⟩

theorem stop_declared {f : String → Spec → Value → σ → Edit σ ε Value} {fields : Fields}
    (hd : Entries.Distinct fields) (hi : ∀ name spec v s, i s → i (f name spec v s).state)
    {es : Entries Value} (hs : i s) (h : (declared f fields es s).stop = none) :
    ∀ g ∈ fields, ∀ w, es.lookup g.1 = some w → ∃ s, i s ∧ (f g.1 g.2 w s).stop = none := by
  induction fields generalizing es s with
  | nil => exact nofun
  | cons g fields ih =>
    obtain ⟨name, spec⟩ := g
    obtain ⟨hname, hd⟩ := List.nodup_cons.1 hd
    have hne (g : String × Spec) (hg : g ∈ fields) : g.1 ≠ name :=
      ne_of_mem_of_not_mem (List.mem_map_of_mem hg) hname
    rw [declared] at h
    rcases hw : es.lookup name with _ | w
    · rw [hw] at h
      refine List.forall_mem_cons.2 ⟨fun w hw' => ?_, ih hd hs h⟩
      cases hw.symm.trans hw'
    · rw [hw] at h
      dsimp only at h
      rw [andThen_eq_proceed, proceed_map] at h
      obtain ⟨hx, h⟩ := stop_proceed h
      refine List.forall_mem_cons.2 ⟨fun w' hw' => ?_, fun g hg w' hw' => ?_⟩
      · obtain rfl := Option.some.inj (hw.symm.trans hw')
        exact ⟨s, hs, hx⟩
      · refine ih hd (hi name spec w s hs) h g hg w' ?_
        rw [Entries.lookup_put, if_neg (hne g hg)]
        exact hw'

end Parts

end Edit

/-! ## Level by level -/

namespace Schema

variable (S : Schema) (focus : Focus) (editor : Editor σ ε) (i : σ → Prop)

/-- In every state as `i` says, the editing walk by a spec comes to an end and leaves what `q`
says. -/
def EditEnds (spec : Spec) (v : Value) (q : Value → Prop) : Prop :=
  ∀ path s, i s → Edit.Ends q i fun depth => S.edit focus editor depth path spec v s

variable {S focus editor i} {q : Value → Prop} {v : Value} {info : Info}

theorem editEnds_terminal {t : Terminal} (h : ∀ path s, i s → Edit.Ends q i fun _ =>
      if focus.takes t then Edit.ask editor ⟨path, .terminal t info, false, v⟩ s else .keep v s) :
    S.EditEnds focus editor i (.terminal t info) v q :=
  fun path s hs => Edit.Ends.deeper_iff.1 (h path s hs)

theorem editEnds_list {r : Value → Value → Prop} {items : Spec}
    (other : v.array? = none → q v)
    (h : ∀ vs, v.array? = some vs → ∀ w ∈ vs, S.EditEnds focus editor i items w (r w))
    (hq : ∀ vs ws, v.array? = some vs → List.Forall₂ r vs ws → q (.array ws)) :
    S.EditEnds focus editor i (.list items info) v q := by
  intro path s hs
  refine Edit.Ends.deeper_iff.1 ?_
  simp only [edit_list]
  rcases hv : v.array? with _ | vs
  · exact .keep (other hv) hs
  · exact (Edit.Ends.members (fun index w hw s hs => h vs hv w hw _ s hs) 0 hs).map
      fun ws hr => hq vs ws hv hr

theorem editEnds_dictionary {p : Entries Value → Entries Value → Prop} {r : Value → Value → Prop}
    {keys values : Spec} (other : v.object? = none → q v)
    (hkeys : ∀ es, v.object? = some es → ∀ path s, i s → Edit.Ends (p es) i fun _ =>
      if keys.terminal?.any focus.takes then Edit.keys editor path keys es s else .keep es s)
    (h : ∀ es fs, v.object? = some es → p es fs → ∀ e ∈ fs,
      S.EditEnds focus editor i values e.2 (r e.2))
    (hq : ∀ es fs gs, v.object? = some es → p es fs →
      List.Forall₂ (fun e e' => e'.1 = e.1 ∧ r e.2 e'.2) fs gs → q (.object gs)) :
    S.EditEnds focus editor i (.dictionary keys values info) v q := by
  intro path s hs
  refine Edit.Ends.deeper_iff.1 ?_
  simp only [edit_dictionary]
  rcases hv : v.object? with _ | es
  · exact .keep (other hv) hs
  · refine Edit.Ends.map ((hkeys es hv path s hs).andThen (p := fun gs => ∃ fs, p es fs ∧
        List.Forall₂ (fun e e' => e'.1 = e.1 ∧ r e.2 e'.2) fs gs) fun fs s hp hs => ?_) ?_
    · have hone (index : Nat) (e : String × Value) (he : e ∈ fs) (s : σ) (hs : i s) :
          Edit.Ends (fun e' : String × Value => e'.1 = e.1 ∧ r e.2 e'.2) i fun depth =>
            (S.edit focus editor depth (Path.entry path e.1) values e.2 s).map (e.1, ·) :=
        (h es fs hv hp e he _ s hs).map fun w hw => ⟨rfl, hw⟩
      exact (Edit.Ends.members hone 0 hs).mono fun gs hgs => ⟨fs, hp, hgs⟩
    · rintro gs ⟨fs, hp, hgs⟩
      exact hq es fs gs hv hp hgs

theorem editEnds_lone {fields : Fields} {spec : Spec} (hl : fields.lone? = some spec)
    (h : S.EditEnds focus editor i spec v q) :
    S.EditEnds focus editor i (.object fields info) v q := by
  intro path s hs
  refine Edit.Ends.deeper_iff.1 ?_
  simp only [edit, fields_lone hl]
  exact h path s hs

theorem editEnds_object {r : Spec → Value → Value → Prop} {fields : Fields}
    (hl : fields.lone? = none) (hd : Entries.Distinct fields) (other : v.object? = none → q v)
    (h : ∀ es, v.object? = some es → ∀ f ∈ fields, ∀ w, es.lookup f.1 = some w →
      S.EditEnds focus editor i f.2 w (r f.2 w))
    (hq : ∀ es fs, v.object? = some es → es.Touched fields r fs → q (.object fs)) :
    S.EditEnds focus editor i (.object fields info) v q := by
  intro path s hs
  refine Edit.Ends.deeper_iff.1 ?_
  simp only [edit, fields_object hl]
  rcases hv : v.object? with _ | es
  · exact .keep (other hv) hs
  · have hparts (f : String × Spec) (hf : f ∈ fields) (w : Value) (hw : es.lookup f.1 = some w)
        (s : σ) (hs : i s) : Edit.Ends (r f.2 w) i fun depth =>
          S.edit focus editor depth (Path.field path f.1) f.2 w s := h es hv f hf w hw _ s hs
    exact (Edit.Ends.declared (f := fun depth name => S.edit focus editor depth
      (Path.field path name)) hd hparts hs).map fun fs ht => hq es fs hv ht

/-- Below an instance the walk goes on by the class of what the editor left of it. -/
theorem editEnds_component {p : Value → Prop} {kind : String} {c : Component}
    (hc : S.components.find? kind = some c)
    (asked : ∀ path s, i s → Edit.Ends p i fun _ => if focus.takesComponent kind then
      Edit.ask editor ⟨path, .component kind info, false, v⟩ s else .keep v s)
    (other : ∀ w, p w → w.isObject = false → q w)
    (h : ∀ w, p w → w.isObject = true →
      S.EditEnds focus editor i (.object (c.classAt w).fields .plain) w q) :
    S.EditEnds focus editor i (.component kind info) v q := by
  intro path s hs
  refine Edit.Ends.deeper_iff.1 ?_
  simp only [edit, hc]
  refine (asked path s hs).andThen fun w s hw hs => ?_
  rcases ho : w.isObject with _ | _
  · exact .keep (other w hw ho) hs
  · exact Edit.Ends.deeper_iff.2 (h w hw ho path s hs)

/-! ## Entries of a script -/

/-- The entry is a collection of resources that the class describes. -/
structure Collects (S : Schema) (entry : String × Value) (c : Class) (vs : List Value) : Prop where
  ne : entry.1 ≠ Script.metaKey
  resource : ∃ type, S.resourceFor? entry.1 = some (type, c)
  array : entry.2 = .array vs

theorem Collects.describes {entry : String × Value} {c : Class} {vs : List Value}
    (h : S.Collects entry c vs) : S.Describes c :=
  let ⟨_, hc⟩ := h.resource
  S.describes_of_resourceFor hc

theorem entryFindings_of_collects {entry : String × Value} {c : Class} {vs : List Value}
    (h : S.Collects entry c vs) :
    S.entryFindings focus entry = .each (S.memberFindings focus entry.1 c.fields) vs.zipIdx := by
  obtain ⟨type, hc⟩ := h.resource
  rw [entryFindings, if_neg h.ne, hc, h.array]

theorem editEntry_of_collects {editor : PlacedEditor σ ε} {entry : String × Value} {c : Class}
    {vs : List Value} (h : S.Collects entry c vs) (depth : Nat) (s : σ) :
    S.editEntry focus editor depth entry s =
      (Edit.members (fun index v => S.edit focus (editor ⟨entry.1, index⟩ (nameOf? v)) (depth + 1)
        "" (.object c.fields .plain) v) 0 vs s).map fun ws => (entry.1, .array ws) := by
  obtain ⟨type, hc⟩ := h.resource
  rw [editEntry, if_neg h.ne, hc, h.array]
  rfl

section Skipped

variable {entry : String × Value} (h : ∀ c vs, ¬ S.Collects entry c vs)
include h

theorem entryFindings_of_not_collects : S.entryFindings focus entry = .nil := by
  unfold entryFindings
  split
  · rfl
  · rename_i hm
    split
    · rename_i type c vs hc hv
      exact absurd ⟨hm, ⟨type, hc⟩, hv⟩ (h c vs)
    · rfl

theorem editEntry_of_not_collects (editor : PlacedEditor σ ε) (depth : Nat) (s : σ) :
    S.editEntry focus editor depth entry s = .keep entry s := by
  unfold editEntry
  split
  · rfl
  · rename_i hm
    split
    · rename_i type c vs hc hv
      exact absurd ⟨hm, ⟨type, hc⟩, hv⟩ (h c vs)
    · rfl

end Skipped

end Schema

end ScriptSchema
