import ScriptSchema.Proofs.Distinct
import ScriptSchema.Proofs.Flushing
import ScriptSchema.Proofs.InPlace
import ScriptSchema.Proofs.Naming
import ScriptSchema.Proofs.Upgrade

/-!
# Scripts without repeated keys

A script is read from text in which no object holds a key twice. Migrations keep it so: whatever
they write, rename, add or leave half done, no object of the script comes to hold a key twice unless
a transform puts such an object there by itself.

* `Value.Tidy`, `Script.Tidy`, `Workspace.Tidy`: no object holds a key twice;
* `Transform.Tidy`, `Step.Tidy`: from what is tidy, a transform leaves what is tidy;
* `Edit.Leaves`: what an edit leaves, wherever it stops;
* `Leaves.proceed`, `Leaves.members`, `Leaves.declared`, …: the whole from its parts;
* **`edit_leaves_tidy`**: editing walks;
* `runStep_tidy`, **`runSteps_tidy`**: steps of a migration;
* **`migrate_tidy`**: migrations.
-/

namespace ScriptSchema

variable {σ ε α β : Type}

theorem Entries.mem_ofPairs {pairs : List (String × α)} {e : String × α} (h : e ∈ ofPairs pairs) :
    e ∈ pairs :=
  (mem_overlay h).resolve_left List.not_mem_nil

theorem forall_mem_of_forall₂ {r : α → β → Prop} {q : β → Prop} (hq : ∀ a b, r a b → q b)
    {as : List α} {bs : List β} (h : List.Forall₂ r as bs) : ∀ b ∈ bs, q b := by
  induction h with
  | nil => exact nofun
  | cons hab _ ih => exact List.forall_mem_cons.2 ⟨hq _ _ hab, ih⟩

/-! ## What is tidy -/

/-- No object in the value holds a key twice, at any level. -/
inductive Value.Tidy : Value → Prop
  | null : Tidy .null
  | bool (b : Bool) : Tidy (.bool b)
  | number (n : Number) : Tidy (.number n)
  | string (s : String) : Tidy (.string s)
  | array {vs : List Value} (items : ∀ v ∈ vs, Tidy v) : Tidy (.array vs)
  | object {es : List (String × Value)} (keys : Entries.Distinct es) (values : ∀ e ∈ es, Tidy e.2) :
    Tidy (.object es)

/-- No key is there twice, and no object in the values holds a key twice. -/
structure Entries.Tidy (es : Entries Value) : Prop where
  keys : es.Distinct
  values : ∀ e ∈ es, e.2.Tidy

theorem Value.Tidy.entries {es : Entries Value} (h : (Value.object es).Tidy) : es.Tidy := by
  cases h with
  | object hk hv => exact ⟨hk, hv⟩

theorem Value.Tidy.items {vs : List Value} (h : (Value.array vs).Tidy) : ∀ v ∈ vs, v.Tidy := by
  cases h with
  | array h => exact h

namespace Entries.Tidy

variable {es : Entries Value}

theorem object (h : es.Tidy) : (Value.object es).Tidy := .object h.keys h.values

theorem empty : Tidy [] := ⟨List.nodup_nil, nofun⟩

/-- Pairs that are written one after the other leave no key twice, whatever the pairs are. -/
theorem ofPairs {pairs : List (String × Value)} (h : ∀ e ∈ pairs, e.2.Tidy) :
    (Entries.ofPairs pairs).Tidy :=
  ⟨distinct_ofPairs pairs, fun e he => h e (mem_ofPairs he)⟩

variable (h : es.Tidy)
include h

theorem of_lookup {key : String} {v : Value} (hv : es.lookup key = some v) : v.Tidy :=
  h.values _ (mem_of_lookup hv)

theorem put (key : String) {v : Value} (hv : v.Tidy) : (es.put key v).Tidy := by
  refine ⟨h.keys.put key v, fun e he => ?_⟩
  rcases mem_put he with rfl | he
  · exact hv
  · exact h.values e he

/-- Entries whose keys have stayed are tidy if their values are. -/
theorem of_forall₂ {fs : Entries Value}
    (hr : List.Forall₂ (fun e e' : String × Value => e'.1 = e.1 ∧ e'.2.Tidy) es fs) : fs.Tidy := by
  have hkeys : fs.keys = es.keys := map_eq_of_forall₂ (hr.imp fun _ _ h => h.1)
  refine ⟨?_, forall_mem_of_forall₂ (fun _ _ h => h.2) hr⟩
  rw [Distinct, hkeys]
  exact h.keys

end Entries.Tidy

/-- No object in the script holds a key twice. -/
def Script.Tidy (d : Script) : Prop := d.entries.Tidy

/-- Nor in what lasts from one transform to the next. -/
structure Workspace.Tidy (w : Workspace) : Prop where
  assets : ∀ v ∈ w.assets, v.Tidy
  before : ∀ d ∈ w.before, d.Tidy
  scratch : w.scratch.Tidy
  queue : ∀ r ∈ w.queue, r.2.Tidy

/-- In a tidy workspace, the transform leaves a value as `p` says and a tidy workspace. -/
def Transform.Tidy (p : α → Prop) (change : Transform α) : Prop :=
  ∀ w a, w.Tidy → p a → p (change w a).value ∧ (w.absorb (change w a)).Tidy

/-- So does the transform of the step. -/
def Step.Tidy : Step → Prop
  | .script f => f.Tidy Script.Tidy
  | .collection _ f => f.Tidy Value.Tidy
  | .component _ f => ∀ owner, owner.Tidy → (f owner).Tidy Value.Tidy

/-! ## Scripts and workspaces -/

namespace Script

/-- The entries of the `meta` block, none if it is not an object. -/
def metaEntries (d : Script) : Entries Value := ((d.get? metaKey).bind Value.object?).getD []

theorem withVersion_eq_put (d : Script) (n : UInt64) : d.withVersion n =
    d.put metaKey (.object (d.metaEntries.put "version" (.ofUInt64 n))) := rfl

end Script

namespace Script.Tidy

variable {d : Script} (h : d.Tidy)
include h

theorem put (key : String) {v : Value} (hv : v.Tidy) : (d.put key v).Tidy :=
  Entries.Tidy.put h key hv

theorem array? {name : String} {vs : List Value} (hv : d.array? name = some vs) :
    ∀ v ∈ vs, v.Tidy := by
  obtain ⟨w, hw, hvs⟩ := Option.bind_eq_some_iff.1 hv
  cases w with
  | array ws =>
    obtain rfl := Option.some.inj hvs
    exact (Entries.Tidy.of_lookup h hw).items
  | _ => cases hvs

theorem collection (name : String) : ∀ v ∈ d.collection name, v.Tidy := by
  rw [Script.collection]
  rcases hv : d.array? name with _ | vs
  · exact fun v hv => absurd hv List.not_mem_nil
  · exact h.array? hv

theorem push (name : String) {v : Value} (hv : v.Tidy) : (d.push name v).Tidy := by
  refine h.put name (.array fun w hw => ?_)
  rcases List.mem_append.1 hw with hw | hw
  · exact h.collection name w hw
  · rwa [List.mem_singleton.1 hw]

theorem pushAll {queue : List (String × Value)} (hq : ∀ r ∈ queue, r.2.Tidy) :
    (d.pushAll queue).Tidy := by
  induction queue generalizing d with
  | nil => exact h
  | cons r queue ih =>
    obtain ⟨hr, hq⟩ := List.forall_mem_cons.1 hq
    rw [Script.pushAll_cons]
    exact ih (h.push r.1 hr) hq

theorem metaEntries : d.metaEntries.Tidy := by
  unfold Script.metaEntries
  rcases hm : d.get? metaKey with _ | v
  · exact .empty
  · cases v with
    | object es => exact (Entries.Tidy.of_lookup h hm).entries
    | _ => exact .empty

theorem withVersion (n : UInt64) : (d.withVersion n).Tidy := by
  rw [Script.withVersion_eq_put]
  exact h.put metaKey (h.metaEntries.put "version" (.number _)).object

end Script.Tidy

namespace Workspace.Tidy

variable {w : Workspace}

theorem start {assets : Option Value} (h : ∀ v ∈ assets, v.Tidy) : (Workspace.start assets).Tidy :=
  ⟨h, nofun, .empty, nofun⟩

variable (h : w.Tidy)
include h

theorem enter {before : Option Script} (hb : ∀ d ∈ before, d.Tidy) : (w.enter before).Tidy :=
  { h with before := hb }

theorem leave : w.leave.Tidy := ⟨h.assets, nofun, h.scratch, nofun⟩

/-- A transform that takes tidy notes and queues what is tidy leaves the workspace tidy. -/
theorem absorb_queues {e : Effect α} {resources : List (String × Value)}
    (he : e.handling = .queues resources) (hs : e.scratch.Tidy)
    (hr : ∀ r ∈ resources, r.2.Tidy) : (w.absorb e).Tidy := by
  rw [Workspace.absorb, he]
  exact { h with scratch := hs, queue := List.forall_mem_append.2 ⟨h.queue, hr⟩ }

theorem flush {d : Script} (hd : d.Tidy) : (w.flush d).Tidy := by
  rw [Workspace.flush_eq_pushAll]
  exact hd.pushAll h.queue

end Workspace.Tidy

/-! ## Edits -/

namespace Edit

/-- Wherever the edit stops, it leaves what `p` says, in a state as `i` says. -/
structure Leaves (p : α → Prop) (i : σ → Prop) (x : Edit σ ε α) : Prop where
  value : p x.value
  state : i x.state

namespace Leaves

variable {p : α → Prop} {q : β → Prop} {i : σ → Prop} {x : Edit σ ε α} {s : σ}

theorem keep {a : α} (ha : p a) (hs : i s) : (Edit.keep a s : Edit σ ε α).Leaves p i := ⟨ha, hs⟩

theorem halt {a : α} (ha : p a) (hs : i s) (stop : Stop ε) : (Edit.halt a s stop).Leaves p i :=
  ⟨ha, hs⟩

theorem map (h : x.Leaves p i) {f : α → β} (hf : ∀ a, p a → q (f a)) : (x.map f).Leaves q i :=
  ⟨hf _ h.value, h.state⟩

/-- What the whole leaves: with what follows the part, or as the part has left it. -/
theorem proceed {whole : α → β} {next : α → σ → Edit σ ε β} (h : x.Leaves p i)
    (hw : ∀ a, p a → q (whole a)) (hn : ∀ a s, p a → i s → (next a s).Leaves q i) :
    (x.proceed whole next).Leaves q i := by
  unfold Edit.proceed
  split
  · exact hn _ _ h.value h.state
  · exact halt (hw _ h.value) h.state _

theorem andThen {next : α → σ → Edit σ ε α} (h : x.Leaves p i)
    (hn : ∀ a s, p a → i s → (next a s).Leaves p i) : (x.andThen next).Leaves p i := by
  rw [andThen_eq_proceed]
  exact h.proceed (fun _ ha => ha) hn

/-- The members of a list are related to what they were one by one: those that were edited, and
those that were not come to. -/
theorem members {r : α → α → Prop} {f : Nat → α → σ → Edit σ ε α} {as : List α}
    (hr : ∀ a ∈ as, r a a) (h : ∀ index, ∀ a ∈ as, ∀ s, i s → (f index a s).Leaves (r a) i)
    (index : Nat) (hs : i s) : (Edit.members f index as s).Leaves (List.Forall₂ r as) i := by
  induction as generalizing index s with
  | nil => exact keep .nil hs
  | cons a as ih =>
    obtain ⟨-, hrest⟩ := List.forall_mem_cons.1 hr
    rw [members_cons]
    refine (h index a List.mem_cons_self s hs).proceed (fun b hb => ?_) fun b s hb hs => ?_
    · exact .cons hb (List.forall₂_same.2 hrest)
    · exact (ih hrest (fun index a ha => h index a (List.mem_cons_of_mem _ ha)) (index + 1) hs).map
        fun bs hbs => .cons hb hbs

theorem members_tidy {f : Nat → Value → σ → Edit σ ε Value} {vs : List Value}
    (hv : ∀ v ∈ vs, v.Tidy)
    (h : ∀ index, ∀ v ∈ vs, ∀ s, i s → (f index v s).Leaves Value.Tidy i) (index : Nat)
    (hs : i s) : (Edit.members f index vs s).Leaves (fun ws => ∀ w ∈ ws, w.Tidy) i :=
  have hm := members (r := fun _ w => w.Tidy) hv h index hs
  ⟨forall_mem_of_forall₂ (q := Value.Tidy) (fun _ _ hw => hw) hm.value, hm.state⟩

/-- Entries are edited under their keys. -/
theorem entries {f : String × Value → σ → Edit σ ε (String × Value)} {es : Entries Value}
    (he : es.Tidy)
    (h : ∀ e ∈ es, ∀ s, i s → (f e s).Leaves (fun e' => e'.1 = e.1 ∧ e'.2.Tidy) i) (hs : i s) :
    (Edit.members (fun _ => f) 0 es s).Leaves Entries.Tidy i :=
  have hm := members (fun e hm => ⟨rfl, he.values e hm⟩) (fun _ => h) 0 hs
  ⟨he.of_forall₂ hm.value, hm.state⟩

theorem declared {f : String → Spec → Value → σ → Edit σ ε Value}
    (h : ∀ name spec v s, v.Tidy → i s → (f name spec v s).Leaves Value.Tidy i) (fields : Fields)
    {es : Entries Value} (he : es.Tidy) (hs : i s) :
    (Edit.declared f fields es s).Leaves Entries.Tidy i := by
  induction fields generalizing es s with
  | nil => exact keep he hs
  | cons g fields ih =>
    obtain ⟨name, spec⟩ := g
    rw [Edit.declared]
    rcases hv : es.lookup name with _ | v
    · exact ih he hs
    · have hname := (h name spec v s (he.of_lookup hv) hs).map fun w hw => he.put name hw
      exact hname.andThen fun es s he hs => ih he hs

open Schema in
theorem fields {f : String → Spec → Value → σ → Edit σ ε Value}
    (h : ∀ path spec v s, v.Tidy → i s → (f path spec v s).Leaves Value.Tidy i) (path : String)
    (fields : Fields) {v : Value} (hv : v.Tidy) (hs : i s) :
    (Edit.fields f path fields v s).Leaves Value.Tidy i := by
  rcases hl : fields.lone? with _ | spec
  · rw [fields_object hl]
    cases v with
    | object es =>
      exact (declared (fun name => h (Path.field path name)) fields hv.entries hs).map
        fun es he => he.object
    | _ => exact keep hv hs
  · rw [fields_lone hl]
    exact h path spec v s hv hs

end Leaves

end Edit

/-! ### Editing walks -/

/-- From what is tidy, the editor leaves what is tidy, and its state stays as `i` says. -/
def Editor.Tidy (i : σ → Prop) (editor : Editor σ ε) : Prop :=
  ∀ visit s, visit.value.Tidy → i s →
    (editor visit s).value.Tidy ∧ i (editor visit s).state

section Editors

variable {i : σ → Prop} {editor : Editor σ ε} (he : editor.Tidy i) {s : σ}
include he

theorem Edit.Leaves.ask {visit : Visit} (hv : visit.value.Tidy) (hs : i s) :
    (Edit.ask editor visit s).Leaves Value.Tidy i :=
  ⟨(he visit s hv hs).1, (he visit s hv hs).2⟩

/-- Whatever the keys are renamed to, none is there twice. -/
theorem Edit.Leaves.keys (path : String) (spec : Spec) {es : Entries Value}
    (h : es.Tidy) (hs : i s) : (Edit.keys editor path spec es s).Leaves Entries.Tidy i := by
  unfold Edit.keys
  dsimp only
  generalize hx : Edit.members _ 0 es.keys s = x
  have hstate : i x.state := by
    rw [← hx]
    refine (members (r := fun _ _ => True) (fun _ _ => trivial) (fun _ key _ s hs => ?_) 0 hs).state
    exact (ask he (.string key) hs).map fun _ _ => trivial
  split
  · exact halt h hstate _
  · split
    · exact keep h hstate
    · refine keep (.ofPairs fun e hm => ?_) hstate
      obtain ⟨e', he', hv⟩ := List.mem_map.1 (List.of_mem_zip hm).2
      exact hv ▸ h.values e' he'

namespace Schema

variable (S : Schema) (focus : Focus)

/-- **An editing walk leaves a tidy value**, however far it goes. -/
theorem edit_leaves_tidy (depth : Nat) (path : String) (spec : Spec) {v : Value} (hv : v.Tidy)
    (hs : i s) : (S.edit focus editor depth path spec v s).Leaves Value.Tidy i := by
  induction depth generalizing path spec v s with
  | zero => exact .halt hv hs _
  | succ depth ih =>
    have below (path : String) (fields : Fields) {v : Value} (hv : v.Tidy) {s : σ} (hs : i s) :
        (Edit.fields (S.edit focus editor depth) path fields v s).Leaves Value.Tidy i :=
      .fields (fun path spec v s hv hs => ih path spec hv hs) path fields hv hs
    cases spec with
    | terminal t info =>
      rw [edit]
      split
      · exact .ask he hv hs
      · exact .keep hv hs
    | list items info =>
      rw [edit_list]
      cases v with
      | array vs =>
        exact (Edit.Leaves.members_tidy hv.items
          (fun index w hw s hs => ih _ items (hv.items w hw) hs) 0 hs).map fun ws hw => .array hw
      | _ => exact .keep hv hs
    | dictionary keys values info =>
      rw [edit_dictionary]
      cases v with
      | object es =>
        refine (Edit.Leaves.andThen ?_ fun es s hes hs => ?_).map
          fun es hes => Entries.Tidy.object hes
        · split
          · exact .keys he path keys hv.entries hs
          · exact .keep hv.entries hs
        · exact .entries hes (fun e hm s hs => (ih _ values (hes.values e hm) hs).map
            fun w hw => ⟨rfl, hw⟩) hs
      | _ => exact .keep hv hs
    | object fields info =>
      rw [edit]
      exact below path fields hv hs
    | component kind info =>
      rw [edit]
      refine Edit.Leaves.andThen ?_ fun v s hv hs => ?_
      · split
        · exact .ask he hv hs
        · exact .keep hv hs
      · rcases S.components.find? kind with _ | c
        · exact .halt hv hs _
        · dsimp only
          split
          · exact below path (c.classAt v).fields hv hs
          · exact .keep hv hs

theorem editResource_leaves_tidy (depth : Nat) (type : String) {v : Value} (hv : v.Tidy)
    (hs : i s) : (S.editResource focus editor depth type v s).Leaves Value.Tidy i := by
  unfold editResource
  rcases S.resources.find? type with _ | c
  · exact .keep hv hs
  · exact .fields (fun path spec v s hv hs => S.edit_leaves_tidy he focus depth path spec hv hs) ""
      c.fields hv hs

end Schema

end Editors

/-! ## Steps of a migration -/

namespace Transform

theorem Tidy.run {p : α → Prop} {change : Transform α} (h : change.Tidy p) {a : α} (ha : p a)
    {w : Workspace} (hw : w.Tidy) : (change.run a w).Leaves p Workspace.Tidy :=
  have he := h w a hw ha
  ⟨he.1, he.2⟩

theorem Tidy.editor {change : Transform Value} (h : change.Tidy Value.Tidy) :
    change.editor.Tidy Workspace.Tidy := fun visit w hv hw => h w visit.value hw hv

end Transform

namespace Schema

variable (S : Schema) (depth : Nat) {d : Script} (hd : d.Tidy) {w : Workspace} (hw : w.Tidy)
include hd hw

/-- What a step changes is tidy, wherever the step stops. -/
theorem change_leaves_tidy {step : Step} (h : step.Tidy) :
    (S.change depth step d w).Leaves Script.Tidy Workspace.Tidy := by
  have henter : (w.enter (some d)).Tidy := hw.enter fun _ he => Option.some.inj he ▸ hd
  cases step with
  | script f => exact Transform.Tidy.run h hd (hw.enter nofun)
  | collection name f =>
    rw [change, changeCollection]
    rcases hvs : d.array? name with _ | vs
    · exact .keep hd hw
    · have hv : ∀ v ∈ vs, v.Tidy := hd.array? hvs
      exact (Edit.Leaves.members_tidy hv (fun _ v hm w hw => Transform.Tidy.run h (hv v hm) hw) 0
        henter).map fun ws hw => hd.put name (.array hw)
  | component kind f =>
    have hentry (e : String × Value) (he : e.2.Tidy) (w : Workspace) (hw : w.Tidy) :
        (S.changeEntry kind f depth e w).Leaves (fun e' => e'.1 = e.1 ∧ e'.2.Tidy)
          Workspace.Tidy := by
      obtain ⟨name, v⟩ := e
      unfold changeEntry
      dsimp only
      split
      · exact .keep ⟨rfl, he⟩ hw
      · rcases S.resourceFor? name with _ | ⟨type, c⟩
        · exact .keep ⟨rfl, he⟩ hw
        · cases v with
          | array vs =>
            refine (Edit.Leaves.members_tidy he.items (fun _ v hm w hw => ?_) 0 hw).map
              fun ws hws => ⟨rfl, .array hws⟩
            have hv : v.Tidy := he.items v hm
            exact S.editResource_leaves_tidy (h v hv).editor _ depth type hv hw
          | _ => exact .keep ⟨rfl, he⟩ hw
    exact (Edit.Leaves.entries hd (fun e he => hentry e (Entries.Tidy.values hd e he)) henter).map
      fun es hes => hes

/-- **A step leaves a tidy script and a tidy workspace**, also if it stops early. -/
theorem runStep_tidy {step : Step} (h : step.Tidy) :
    (S.runStep depth step d w).script.Tidy ∧ (S.runStep depth step d w).workspace.Tidy := by
  obtain ⟨hscript, hworkspace⟩ := S.change_leaves_tidy depth hd hw h
  unfold runStep
  dsimp only
  split
  · exact ⟨hscript, hworkspace⟩
  · exact ⟨hworkspace.flush hscript, hworkspace.leave⟩

/-- **So do the steps of a migration**, one after the other. -/
theorem runSteps_tidy {steps : List Step} (h : ∀ step ∈ steps, step.Tidy) :
    (S.runSteps depth steps d w).script.Tidy ∧ (S.runSteps depth steps d w).workspace.Tidy := by
  induction steps generalizing d w with
  | nil => exact ⟨hd, hw⟩
  | cons step steps ih =>
    obtain ⟨hstep, hsteps⟩ := List.forall_mem_cons.1 h
    obtain ⟨hscript, hworkspace⟩ := S.runStep_tidy depth hd hw hstep
    rw [runSteps]
    split
    · exact ⟨hscript, hworkspace⟩
    · exact ih hscript hworkspace hsteps

end Schema

/-! ## Migrations -/

namespace Plan

variable {m : Plan} {assets : Option Value} (ha : ∀ v ∈ assets, v.Tidy)
include ha

theorem apply_tidy {a : Migration} (hsteps : ∀ step ∈ a.steps, step.Tidy) {d d' : Script}
    (hd : d.Tidy) (h : m.apply assets d a = .ok d') : d'.Tidy := by
  unfold apply at h
  dsimp only at h
  split at h
  · cases h
  · obtain rfl := Except.ok.inj h
    exact (m.schema.runSteps_tidy m.depth hd (.start ha) hsteps).1.withVersion a.num

theorem foldlM_apply_tidy {as : List Migration} (has : ∀ a ∈ as, ∀ step ∈ a.steps, step.Tidy)
    {d d' : Script} (hd : d.Tidy) (h : as.foldlM (m.apply assets) d = .ok d') : d'.Tidy := by
  induction as generalizing d with
  | nil =>
    obtain rfl : d = d' := Except.ok.inj h
    exact hd
  | cons a as ih =>
    obtain ⟨hsteps, has⟩ := List.forall_mem_cons.1 has
    rw [List.foldlM_cons] at h
    obtain ⟨d₁, h₁, h⟩ := bind_eq_ok_iff.1 h
    exact ih has (apply_tidy ha hsteps hd h₁) h

/-- **Migrations leave a tidy script**, if their transforms do. -/
theorem migrate_tidy (hm : ∀ a ∈ m.migrations, ∀ step ∈ a.steps, step.Tidy) {d d' : Script}
    (hd : d.Tidy) (h : m.migrate d assets = .ok d') : d'.Tidy := by
  obtain ⟨⟨d₀, version⟩, he, h⟩ := bind_eq_ok_iff.1 h
  have hd₀ : d₀.Tidy := by
    obtain ⟨-, rfl⟩ := entry_eq_ok_iff.1 he
    split
    · exact hd.withVersion 0
    · exact hd
  exact foldlM_apply_tidy ha (fun a hp => hm a (List.mem_of_mem_filter hp)) hd₀ h

end Plan

end ScriptSchema
