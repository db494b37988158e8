import ScriptSchema.Proofs.InPlace

/-!
# Editing walks side by side

Two editors that answer alike, while their states stay related, are asked the same on an editing
walk and leave the same. A walk goes by what its editor leaves and never looks at the state, so that
nothing else is needed: no editor has to be gentle, and no depth has to be enough.

* `Reply.Alike`, `Editor.Alike`, `Edit.Alike`: the same answers and the same outcome, up to states
  that are related;
* `Alike.proceed`, `Alike.members`, `Alike.declared`, …: the whole from its parts;
* **`edit_alike`**, **`editFields_alike`**: editing walks.
-/

namespace ScriptSchema

variable {σ τ ε α β : Type}

/-- The same answer, and states that are related. -/
structure Reply.Alike (R : σ → τ → Prop) (r : Reply σ ε) (q : Reply τ ε) : Prop where
  value : r.value = q.value
  state : R r.state q.state
  error : r.error = q.error

/-- From related states the editors answer alike. -/
def Editor.Alike (R : σ → τ → Prop) (f : Editor σ ε) (g : Editor τ ε) : Prop :=
  ∀ visit s t, R s t → (f visit s).Alike R (g visit t)

namespace Edit

/-- The edits leave the same and end in the same way, in states that are related. -/
structure Alike (R : σ → τ → Prop) (x : Edit σ ε α) (y : Edit τ ε α) : Prop where
  value : x.value = y.value
  state : R x.state y.state
  stop : x.stop = y.stop

namespace Alike

variable {R : σ → τ → Prop} {s : σ} {t : τ} {x : Edit σ ε α} {y : Edit τ ε α}

/-- Edits that are alike up to the same state are the same. -/
theorem eq {x y : Edit σ ε α} (h : x.Alike (· = ·) y) : x = y := by
  obtain ⟨a, s, stop⟩ := x
  obtain ⟨hv, hs, he⟩ := h
  subst hv hs he
  rfl

theorem keep (a : α) (h : R s t) : (Edit.keep a s : Edit σ ε α).Alike R (.keep a t) := ⟨rfl, h, rfl⟩

theorem halt (a : α) (h : R s t) (e : Stop ε) : (Edit.halt a s e).Alike R (.halt a t e) :=
  ⟨rfl, h, rfl⟩

theorem map (h : x.Alike R y) (f : α → β) : (x.map f).Alike R (y.map f) :=
  ⟨congrArg f h.value, h.state, h.stop⟩

/-- Edits are alike if the edits of a part are, and what follows. -/
theorem proceed {whole : α → β} {next : α → σ → Edit σ ε β} {next' : α → τ → Edit τ ε β}
    (h : x.Alike R y) (hn : ∀ a s t, R s t → (next a s).Alike R (next' a t)) :
    (x.proceed whole next).Alike R (y.proceed whole next') := by
  obtain ⟨a, s, stop⟩ := x
  obtain ⟨b, t, stop'⟩ := y
  obtain ⟨hv, hs, he⟩ := h
  obtain rfl : a = b := hv
  obtain rfl : stop = stop' := he
  cases stop with
  | none => exact hn a s t hs
  | some e => exact halt (whole a) hs e

theorem andThen {next : α → σ → Edit σ ε α} {next' : α → τ → Edit τ ε α} (h : x.Alike R y)
    (hn : ∀ a s t, R s t → (next a s).Alike R (next' a t)) :
    (x.andThen next).Alike R (y.andThen next') := by
  rw [andThen_eq_proceed, andThen_eq_proceed]
  exact h.proceed hn

/-- The members of a list are edited alike, each with its own index. -/
theorem members {f : Nat → α → σ → Edit σ ε α} {g : Nat → α → τ → Edit τ ε α} {as : List α}
    {index : Nat}
    (h : ∀ m ∈ as.zipIdx index, ∀ s t, R s t → (f m.2 m.1 s).Alike R (g m.2 m.1 t))
    (hst : R s t) : (Edit.members f index as s).Alike R (Edit.members g index as t) := by
  induction as generalizing index s t with
  | nil => exact keep [] hst
  | cons a as ih =>
    rw [List.zipIdx_cons, List.forall_mem_cons] at h
    rw [members_cons, members_cons]
    refine (h.1 s t hst).proceed fun a s t hst => ?_
    exact (ih h.2 hst).map (a :: ·)

theorem declared {f : String → Spec → Value → σ → Edit σ ε Value}
    {g : String → Spec → Value → τ → Edit τ ε Value}
    (h : ∀ name spec v s t, R s t → (f name spec v s).Alike R (g name spec v t)) (fields : Fields)
    (es : Entries Value) (hst : R s t) :
    (Edit.declared f fields es s).Alike R (Edit.declared g fields es t) := by
  induction fields generalizing es s t with
  | nil => exact keep es hst
  | cons e fields ih =>
    obtain ⟨name, spec⟩ := e
    rw [Edit.declared, Edit.declared]
    rcases es.lookup name with _ | v
    · exact ih es hst
    · exact ((h name spec v s t hst).map (es.put name)).andThen fun es s t hst => ih es hst

theorem fields {f : String → Spec → Value → σ → Edit σ ε Value}
    {g : String → Spec → Value → τ → Edit τ ε Value}
    (h : ∀ path spec v s t, R s t → (f path spec v s).Alike R (g path spec v t)) (path : String)
    (fields : Fields) (v : Value) (hst : R s t) :
    (Edit.fields f path fields v s).Alike R (Edit.fields g path fields v t) := by
  rcases hl : fields.lone? with _ | spec
  · rw [Schema.fields_object hl, Schema.fields_object hl]
    rcases v.object? with _ | es
    · exact keep v hst
    · exact (declared (fun name => h (Path.field path name)) fields es hst).map Value.object
  · rw [Schema.fields_lone hl, Schema.fields_lone hl]
    exact h path spec v s t hst

section Editors

variable {f : Editor σ ε} {g : Editor τ ε} (hfg : f.Alike R g)
include hfg

theorem ask (visit : Visit) (hst : R s t) : (Edit.ask f visit s).Alike R (Edit.ask g visit t) :=
  have h := hfg visit s t hst
  ⟨h.value, h.state, congrArg (Option.map Stop.raised) h.error⟩

theorem keys (path : String) (spec : Spec) (es : Entries Value) (hst : R s t) :
    (Edit.keys f path spec es s).Alike R (Edit.keys g path spec es t) := by
  unfold Edit.keys
  dsimp only
  generalize hx : Edit.members _ 0 es.keys s = x
  generalize hy : Edit.members _ 0 es.keys t = y
  have h : x.Alike R y := by
    rw [← hx, ← hy]
    exact members (fun m _ s t hst => (ask hfg _ hst).map _) hst
  rw [h.value, h.stop]
  split
  · exact halt es h.state _
  · split
    · exact keep es h.state
    · exact keep _ h.state

end Editors

end Alike

end Edit

namespace Schema

variable (S : Schema) (focus : Focus) {R : σ → τ → Prop} {f : Editor σ ε} {g : Editor τ ε}
  (hfg : f.Alike R g)
include hfg

/-- **Editors that answer alike edit a value alike.** -/
theorem edit_alike (depth : Nat) (path : String) (spec : Spec) (v : Value) {s : σ} {t : τ}
    (hst : R s t) :
    (S.edit focus f depth path spec v s).Alike R (S.edit focus g depth path spec v t) := by
  induction depth generalizing path spec v s t with
  | zero => exact .halt v hst .tooDeep
  | succ depth ih =>
    have below (path : String) (fields : Fields) (v : Value) {s : σ} {t : τ} (hst : R s t) :
        (Edit.fields (S.edit focus f depth) path fields v s).Alike R
          (Edit.fields (S.edit focus g depth) path fields v t) :=
      .fields (fun path spec v s t hst => ih path spec v hst) path fields v hst
    cases spec with
    | terminal t' info =>
      rw [edit, edit]
      split
      · exact .ask hfg _ hst
      · exact .keep v hst
    | list items info =>
      rw [edit_list, edit_list]
      rcases v.array? with _ | vs
      · exact .keep v hst
      · refine Edit.Alike.map (.members (fun m _ s t hst => ?_) hst) Value.array
        exact ih _ items m.1 hst
    | dictionary keys values info =>
      rw [edit_dictionary, edit_dictionary]
      rcases v.object? with _ | es
      · exact .keep v hst
      · refine (Edit.Alike.andThen ?_ fun es s t hst => ?_).map Value.object
        · split
          · exact .keys hfg path keys es hst
          · exact .keep es hst
        · exact .members (fun m _ s t hst => (ih _ values m.1.2 hst).map (m.1.1, ·)) hst
    | object fields info =>
      rw [edit, edit]
      exact below path fields v hst
    | component kind info =>
      rw [edit, edit]
      refine Edit.Alike.andThen ?_ fun v s t hst => ?_
      · split
        · exact .ask hfg _ hst
        · exact .keep v hst
      · rcases S.components.find? kind with _ | c
        · exact .halt v hst _
        · dsimp only
          split
          · exact below path (c.classAt v).fields v hst
          · exact .keep v hst

theorem editFields_alike (depth : Nat) (path : String) (fields : Fields) (v : Value) {s : σ} {t : τ}
    (hst : R s t) :
    (S.editFields focus f depth path fields v s).Alike R
      (S.editFields focus g depth path fields v t) :=
  .fields (fun path spec v _ _ hst => S.edit_alike focus hfg depth path spec v hst) path fields v hst

end Schema

end ScriptSchema
