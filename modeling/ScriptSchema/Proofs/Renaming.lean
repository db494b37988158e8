import ScriptSchema.Proofs.Endings
import ScriptSchema.Proofs.KeyRenaming
import ScriptSchema.Proofs.Naming

/-!
# Giving a resource another name

When a resource is given another name, the references to it have to follow. An editing walk through
the references does that: it writes the new name for the old one, in fields, in lists and in the keys
of dictionaries. The walk goes the same way through what it leaves as through what it was given,
since no tag is a reference, and so it finds every reference and makes none.

* `Renaming`, `Renaming.editor`: another name for a resource, and what is left of a reference;
* `Renaming.Fresh`, `Schema.KeysApart`, `Renaming.Suits`: when the references can follow;
* `Renaming.Renames`: what is left of a value;
* `named_of_touched`, `choose_of_touched`, `keys_end`, `named_keys`: objects, tags and keys;
* **`renames_end`**: the editing walk through a value.
-/

namespace ScriptSchema

/-! ## Another name -/

/-- Another name for a resource of a collection. -/
structure Renaming where
  collection : String
  old : String
  new : String

namespace Renaming

variable (r : Renaming)

/-- What a reference to a collection names then. -/
def apply (collection name : String) : String :=
  if collection = r.collection ∧ name = r.old then r.new else name

/-- The same, with the collection. -/
def named : String × String → String × String :=
  fun (collection, name) => (collection, r.apply collection name)

/-- The string that is written for a string with a spec. -/
def text (spec : Spec) (name : String) : String :=
  match spec with
  | .terminal (.reference collection _ _) _ => r.apply collection name
  | _ => name

/-- The editor that writes the new name for the old one. -/
def editor : PlacedEditor Unit Empty := fun _ _ visit s =>
  match visit.value with
  | .string name => ⟨.string (r.text visit.spec name), s, none⟩
  | v => ⟨v, s, none⟩

/-- Neither name is a special value of a reference to the collection. -/
def Spares : Terminal → Prop
  | .reference collection special _ =>
    collection = r.collection → ∀ x ∈ special, x.value ≠ r.old ∧ x.value ≠ r.new
  | _ => True

/-- The names can be told apart, and from all that names nothing. -/
structure Fresh (S : Schema) : Prop where
  ne : r.old ≠ r.new
  old_ne : r.old ≠ ""
  new_ne : r.new ≠ ""
  spares : ∀ c, S.Describes c → Spec.EveryField r.Spares (fun _ => True) c.fields

variable {r}

theorem text_of_not_isReference {spec : Spec} (h : spec.isReference = false) (name : String) :
    r.text spec name = name := by
  cases spec with
  | terminal t info =>
    cases t with
    | reference => nomatch h
    | _ => rfl
  | _ => rfl

theorem named_ne (h : r.old ≠ r.new) (target : String × String) :
    r.named target ≠ (r.collection, r.old) := by
  obtain ⟨collection, name⟩ := target
  intro hx
  obtain ⟨hc, hn⟩ := Prod.mk.inj hx
  unfold apply at hn
  split at hn
  · exact h hn.symm
  · rename_i hnot
    exact hnot ⟨hc, hn⟩

/-- A reference names the new resource if it named the old one, and what it named before if not. -/
theorem named?_text {S : Schema} (h : r.Fresh S) {t : Terminal} (ht : r.Spares t) (info : Info)
    (path path' : String) (onKey onKey' : Bool) (name : String) :
    Visit.named? ⟨path', .terminal t info, onKey', .string (r.text (.terminal t info) name)⟩ =
      (Visit.named? ⟨path, .terminal t info, onKey, .string name⟩).map r.named := by
  cases t with
  | reference collection special nullable =>
    have hspecial (x : String) (hx : x = r.old ∨ x = r.new) (hc : collection = r.collection) :
        special.any (·.value == x) = false := by
      refine List.any_eq_false.2 fun s hs he => ?_
      have hs' := ht hc s hs
      obtain rfl | rfl := hx
      · exact hs'.1 (eq_of_beq he)
      · exact hs'.2 (eq_of_beq he)
    unfold Visit.named? text
    dsimp only
    by_cases hx : collection = r.collection ∧ name = r.old
    · obtain ⟨hc, rfl⟩ := hx
      have happly : r.apply collection r.old = r.new := if_pos ⟨hc, rfl⟩
      simp only [happly, hspecial _ (.inl rfl) hc, hspecial _ (.inr rfl) hc, h.old_ne, h.new_ne,
        Bool.false_eq_true, or_self, if_false, Option.map_some, named]
    · have happly : r.apply collection name = name := if_neg hx
      simp only [happly]
      split
      · rfl
      · simp only [Option.map_some, named, happly]
  | _ => rfl

end Renaming

/-- No dictionary that a walk comes to, and whose keys are references to the collection, has both
names among its keys. -/
def Schema.KeysApart (S : Schema) (r : Renaming) (spec : Spec) (v : Value) : Prop :=
  ∀ special nullable info values info' (es : Entries Value),
    S.Reaches true spec v (.dictionary (.terminal (.reference r.collection special nullable) info)
      values info') (.object es) → ¬ (r.old ∈ es.keys ∧ r.new ∈ es.keys)

/-! ## The editing walk through a value -/

namespace Renaming

variable (r : Renaming) (S : Schema)

/-- What is asked of a spec and a value, so that the references in the value can follow. -/
structure Suits (spec : Spec) (v : Value) : Prop where
  checked : spec.Every S.Admits S.Registers
  distinct : spec.Distinct
  loneFree : spec.LoneFree
  spares : spec.Every r.Spares fun _ => True
  objects : v.EveryObject List.Nodup
  apart : S.KeysApart r spec v

/-- What is left of a value: what chooses a variant is as before, unless the spec is one of
references, and the references name what they named before, with the new name for the old one. -/
structure Renames (spec : Spec) (v v' : Value) : Prop where
  shape : spec.isReference = false → v'.string? = v.string? ∧ (v' = .null ↔ v = .null)
  named : ∀ path path', S.named path' spec v' = (S.named path spec v).map (Option.map r.named)

variable {r S} {spec : Spec} {v : Value} {info : Info}

namespace Suits

theorem item {items : Spec} {vs : List Value} (h : r.Suits S (.list items info) (.array vs))
    {w : Value} (hw : w ∈ vs) : r.Suits S items w where
  checked := h.checked
  distinct := h.distinct
  loneFree := h.loneFree
  spares := h.spares
  objects := Value.everyItem_iff.1 h.objects w hw
  apart _ _ _ _ _ _ hr := h.apart _ _ _ _ _ _ (.step (.item hw) hr)

theorem value {keys values : Spec} {es : Entries Value}
    (h : r.Suits S (.dictionary keys values info) (.object es)) {e : String × Value} (he : e ∈ es) :
    r.Suits S values e.2 where
  checked := h.checked.2
  distinct := h.distinct.2
  loneFree := h.loneFree.2
  spares := h.spares.2
  objects := Value.everyEntry_iff.1 h.objects.2 e he
  apart _ _ _ _ _ _ hr := h.apart _ _ _ _ _ _ (.step (.value he) hr)

theorem field {fields : Fields} {es : Entries Value}
    (h : r.Suits S (.object fields info) (.object es)) {f : String × Spec} (hf : f ∈ fields)
    {w : Value} (hw : es.lookup f.1 = some w) : r.Suits S f.2 w where
  checked := Spec.everyField_iff.1 h.checked f hf
  distinct := Spec.eachDistinct_iff.1 h.distinct.2 f hf
  loneFree := Spec.eachLoneFree_iff.1 h.loneFree.2 f hf
  spares := Spec.everyField_iff.1 h.spares f hf
  objects := Value.everyEntry_iff.1 h.objects.2 _ (mem_of_lookup hw)
  apart _ _ _ _ _ _ hr := h.apart _ _ _ _ _ _ (.step (.field h.loneFree.1 hf hw) hr)

/-- A terminal spec has no dictionaries to come to. -/
theorem terminal {t : Terminal} (checked : S.Admits t) (spares : r.Spares t)
    (objects : v.EveryObject List.Nodup) : r.Suits S (.terminal t info) v where
  checked := checked
  distinct := trivial
  loneFree := trivial
  spares := spares
  objects := objects
  apart _ _ _ _ _ _ hr := nomatch hr.of_terminal.1

end Suits

/-! ### What is left -/

theorem Renames.of_nil (h : ∀ path, S.named path spec v = .nil) : r.Renames S spec v v where
  shape _ := ⟨rfl, Iff.rfl⟩
  named path path' := by
    rw [h path, h path']
    rfl

theorem Renames.reference (hr : r.Fresh S) {t : Terminal} (hs : r.Spares t)
    (ht : Focus.reference.takes t = true) (place : Place) (owner : Option String) (path : String)
    (s : Unit) : r.Renames S (.terminal t info) v
      (r.editor place owner ⟨path, .terminal t info, false, v⟩ s).value where
  shape hx := absurd (ht.symm.trans hx) nofun
  named path' path'' := by
    rw [Schema.named_terminal, Schema.named_terminal, if_pos ht, if_pos ht]
    refine congrArg (fun x => Trace.ofList [x]) ?_
    cases v with
    | string name => exact named?_text hr hs info path' path'' false false name
    | _ => cases t <;> rfl

theorem Renames.list {items : Spec} {vs ws : List Value}
    (h : List.Forall₂ (r.Renames S items) vs ws) :
    r.Renames S (.list items info) (.array vs) (.array ws) where
  shape _ := ⟨rfl, nofun, nofun⟩
  named path path' := by
    rw [Schema.named_list, Schema.named_list]
    refine Eq.trans (Trace.each_of_forall₂ ?_) (Trace.map_each _ _ _).symm
    exact (forall₂_zipIdx h 0).imp fun m n hm => hm.1.named _ _

theorem Renames.of_object {es fs : Entries Value}
    (h : ∀ path path', S.named path' spec (.object fs) =
      (S.named path spec (.object es)).map (Option.map r.named)) :
    r.Renames S spec (.object es) (.object fs) where
  shape _ := ⟨rfl, nofun, nofun⟩
  named := h

/-- An object whose fields are such that their references follow. -/
theorem named_of_touched {fields : Fields} (hl : fields.lone? = none) {es fs : Entries Value}
    (h : es.Touched fields (r.Renames S) fs) (path path' : String) :
    S.named path' (.object fields info) (.object fs) =
      (S.named path (.object fields info) (.object es)).map (Option.map r.named) := by
  rw [Schema.named_object path' info _ hl, Schema.named_object path info _ hl]
  refine Eq.trans (Trace.each_congr fun f hf => ?_) (Trace.map_each _ _ _).symm
  have hf := h.declared f hf
  generalize es.lookup f.1 = o at hf
  generalize fs.lookup f.1 = o' at hf
  cases hf with
  | some hw => exact hw.named _ _
  | none => rfl

/-- The tag of an instance is as before. -/
theorem choose_of_touched (hK : S.Keyed) {kind : String} {c : Component}
    (hc : S.components.find? kind = some c) {es fs : Entries Value}
    (h : es.Touched (c.classAt (.object es)).fields (r.Renames S) fs) :
    c.choose (.object fs) = c.choose (.object es) := by
  obtain ⟨key, hk⟩ := hK.byKey kind c hc
  have htag : Option.Rel (fun w w' => w'.string? = w.string? ∧ (w' = .null ↔ w = .null))
      (es.lookup key) (fs.lookup key) := by
    by_cases hm : key ∈ Entries.keys (c.classAt (.object es)).fields
    · obtain ⟨f, hf, rfl⟩ := List.mem_map.1 hm
      have hspec := hK.tag_classAt hc (.object es) f hf (by rw [hk]; rfl)
      have hf := h.declared f hf
      generalize es.lookup f.1 = o at hf
      generalize fs.lookup f.1 = o' at hf
      cases hf with
      | some hw => exact .some (hw.shape hspec)
      | none => exact .none
    · rw [h.other key hm]
      rcases es.lookup key with _ | w
      · exact .none
      · exact .some ⟨rfl, Iff.rfl⟩
  have he (es : Entries Value) : Value.entry? (.object es) key = es.lookup key := rfl
  unfold Component.choose Tagging.choose
  rw [hk]
  dsimp only
  rw [he, he]
  generalize es.lookup key = o at htag
  generalize fs.lookup key = o' at htag
  cases htag with
  | none => rfl
  | @some w w' hw =>
    obtain ⟨hs, hn⟩ := hw
    cases w <;> cases w' <;> simp_all [Value.string?]

theorem classAt_of_touched (hK : S.Keyed) {kind : String} {c : Component}
    (hc : S.components.find? kind = some c) {es fs : Entries Value}
    (h : es.Touched (c.classAt (.object es)).fields (r.Renames S) fs) :
    c.classAt (.object fs) = c.classAt (.object es) := by
  unfold Component.classAt
  rw [choose_of_touched hK hc h]

theorem Renames.component (hK : S.Keyed) {kind : String} {c : Component}
    (hc : S.components.find? kind = some c) {es fs : Entries Value}
    (hl : (c.classAt (.object es)).fields.lone? = none)
    (h : es.Touched (c.classAt (.object es)).fields (r.Renames S) fs) :
    r.Renames S (.component kind info) (.object es) (.object fs) := by
  refine .of_object fun path path' => ?_
  rw [Schema.named_component path' info _ hK.grounded hc,
    Schema.named_component path info _ hK.grounded hc, classAt_of_touched hK hc h]
  exact named_of_touched hl h path path'

/-- Below an instance that is handed on to its tag there is no reference. -/
theorem Renames.untagged (hK : S.Keyed) {kind : String} {c : Component}
    (hc : S.components.find? kind = some c) {options : List String} {info' : Info}
    (hl : (c.classAt v).fields.lone? = some (.terminal (.enum options) info')) :
    r.Renames S (.component kind info) v v := by
  refine .of_nil fun path => ?_
  rw [Schema.named_component path info v hK.grounded hc, Schema.named_lone path .plain _ hl,
    Schema.named_terminal]
  split <;> rfl

/-! ### Keys -/

theorem editor_error (place : Place) (owner : Option String) (visit : Visit) (s : Unit) :
    (r.editor place owner visit s).error = none := by
  unfold editor
  split <;> rfl

theorem namesLeft_editor (place : Place) (owner : Option String) (path : String) (spec : Spec)
    (keys : List String) :
    (r.editor place owner).namesLeft path spec keys () = (keys.map (r.text spec), ()) := by
  induction keys with
  | nil => rfl
  | cons key keys ih =>
    have hone : (r.editor place owner ⟨Path.entry path key, spec, true, .string key⟩ ()) =
        ⟨.string (r.text spec key), (), none⟩ := rfl
    rw [Editor.namesLeft, hone, ih]
    rfl

theorem text_injOn {keys : Spec} {es : Entries Value}
    (ha : ∀ special nullable info, keys = .terminal (.reference r.collection special nullable) info →
      ¬ (r.old ∈ es.keys ∧ r.new ∈ es.keys)) :
    ∀ x ∈ es.keys, ∀ y ∈ es.keys, r.text keys x = r.text keys y → x = y := by
  intro x hx y hy hxy
  rcases hk : keys.isReference with _ | _
  · rwa [text_of_not_isReference hk, text_of_not_isReference hk] at hxy
  cases keys with
  | terminal t info =>
    cases t with
    | reference collection special nullable =>
      change r.apply collection x = r.apply collection y at hxy
      by_cases hc : collection = r.collection
      · subst hc
        have ha := ha special nullable info rfl
        unfold apply at hxy
        simp only [true_and] at hxy
        split at hxy <;> split at hxy
        · simp_all
        · rename_i hx' hy'
          exact absurd ⟨hx' ▸ hx, hxy ▸ hy⟩ ha
        · rename_i hx' hy'
          exact absurd ⟨hy' ▸ hy, hxy ▸ hx⟩ ha
        · exact hxy
      · simpa only [apply, hc, false_and, if_false] using hxy
    | _ => nomatch hk
  | _ => nomatch hk

/-- Every key of a dictionary is renamed, and none is lost. -/
theorem keys_end (place : Place) (owner : Option String) {keys : Spec} {es : Entries Value}
    (hd : es.keys.Nodup)
    (ha : ∀ special nullable info, keys = .terminal (.reference r.collection special nullable) info →
      ¬ (r.old ∈ es.keys ∧ r.new ∈ es.keys)) (path : String) (s : Unit) :
    Edit.Ends (fun fs => fs = es.map fun e => (r.text keys e.1, e.2)) (fun _ => True) fun _ =>
      if keys.terminal?.any Focus.reference.takes then
        Edit.keys (r.editor place owner) path keys es s
      else .keep es s := by
  rcases hk : keys.terminal?.any Focus.reference.takes with _ | _
  · refine .keep ?_ trivial
    have hsame (e : String × Value) : (r.text keys e.1, e.2) = e := by
      rw [text_of_not_isReference hk]
    rw [funext hsame, List.map_id']
  · have hleft := namesLeft_editor (r := r) place owner path keys es.keys
    have hn : ((r.editor place owner).namesLeft path keys es.keys s).1.Nodup := by
      rw [hleft]
      exact List.Nodup.map_on (text_injOn ha) hd
    have hzip : (es.keys.map (r.text keys)).zip (es.map Prod.snd) =
        es.map fun e => (r.text keys e.1, e.2) := by
      rw [Entries.keys, List.map_map, List.zip_map']
      rfl
    simp only [if_true]
    rw [Edit.keys_eq_zip (editor_error place owner) path keys hd hn, hleft, hzip]
    exact .keep rfl trivial

theorem named_keys (hr : r.Fresh S) {keys : Spec} (hk : keys.Every r.Spares fun _ => True)
    {es gs : Entries Value} (hkeys : gs.keys = es.keys.map (r.text keys)) (path path' : String) :
    (Schema.keyVisits .reference path' keys gs).map Visit.named? =
      ((Schema.keyVisits .reference path keys es).map Visit.named?).map (Option.map r.named) := by
  unfold Schema.keyVisits
  split
  · cases keys with
    | terminal t info =>
      simp only [Trace.map, Trace.ofList, hkeys, List.map_map, Trace.mk.injEq, and_true]
      exact List.map_congr_left fun key _ => named?_text hr hk info _ _ true true key
    | _ => rename_i ht; cases ht
  · rfl

theorem Renames.dictionary (hr : r.Fresh S) {keys values : Spec}
    (hk : keys.Every r.Spares fun _ => True) {es gs : Entries Value}
    (h : List.Forall₂ (fun e e' => e'.1 = r.text keys e.1 ∧ r.Renames S values e.2 e'.2) es gs) :
    r.Renames S (.dictionary keys values info) (.object es) (.object gs) := by
  have hkeys : gs.keys = es.keys.map (r.text keys) := by
    rw [Entries.keys, Entries.keys, List.map_map]
    exact map_eq_of_forall₂ (h.imp fun e e' he => he.1)
  refine .of_object fun path path' => ?_
  rw [Schema.named_dictionary, Schema.named_dictionary]
  dsimp only [Value.object?]
  rw [named_keys hr hk hkeys path path', Trace.map_append, Trace.map_each]
  refine congrArg (_ ++ ·) (Trace.each_of_forall₂ ?_)
  exact h.imp fun e e' he => he.2.named _ _

section Walk

variable (hS : S.Sound) (hD : S.Distinct) (hK : S.Keyed) (hr : r.Fresh S)
include hS hD hK hr

/-- The fields by which the walk goes on below an instance. -/
theorem Suits.classAt {kind : String} {c : Component} (hc : S.components.find? kind = some c)
    {es : Entries Value} (h : r.Suits S (.component kind info) (.object es)) {f : String × Spec}
    (hf : f ∈ (c.classAt (.object es)).fields) {w : Value} (hw : es.lookup f.1 = some w) :
    r.Suits S f.2 w := by
  obtain hcmp | hu := Schema.comparedFields?_or_untagged c (.object es)
  · obtain ⟨name, chosen, hv, hx, heq⟩ := Component.comparedFields?_eq_some_iff.1 hcmp
    have hd : S.Describes chosen := .variant hc hx
    have hfields : r.Suits S (.object chosen.fields .plain) (.object es) :=
      { checked := hS.everyField chosen hd
        distinct := hD chosen hd
        loneFree := hK.loneFree chosen hd
        spares := hr.spares chosen hd
        objects := h.objects
        apart := fun _ _ _ _ _ _ h' => h.apart _ _ _ _ _ _ (.step (.variant hc hv hx) h') }
    rw [← heq] at hf
    exact hfields.field hf hw
  · have hchecked := S.everyField_untagged c
    rw [hu] at hf
    have hadmits := Spec.everyField_iff.1 hchecked f hf
    obtain ⟨options, info', he⟩ := Schema.enum_of_mem_untagged hf
    rw [he] at hadmits ⊢
    exact .terminal hadmits trivial (Value.everyEntry_iff.1 h.objects.2 _ (mem_of_lookup hw))

/-- **Below every value the references follow.** -/
theorem renames_end (place : Place) (owner : Option String) {spec : Spec} {v : Value}
    (h : r.Suits S spec v) :
    S.EditEnds .reference (r.editor place owner) (fun _ => True) spec v (r.Renames S spec v) := by
  -- the parts of a value are smaller, and a component hands it to fields that are no lone `self`
  induction hn : sizeOf v using Nat.strong_induction_on generalizing spec v with
  | _ n ih =>
    subst hn
    cases spec with
    | terminal t info =>
      refine Schema.editEnds_terminal fun path s hs => ?_
      rcases ht : Focus.reference.takes t with _ | _
      · refine .keep (.of_nil fun path => ?_) trivial
        rw [Schema.named_terminal, ht]
        rfl
      · simp only [if_true]
        rw [Edit.ask_eq_keep (editor_error place owner _ s)]
        exact .keep (.reference hr h.spares ht place owner path s) trivial
    | list items info =>
      refine Schema.editEnds_list (r := r.Renames S items) (fun hv => .of_nil fun path => ?_)
        (fun vs hv w hw => ?_) fun vs ws hv hws => ?_
      · rw [Schema.named_list, hv]
      · obtain rfl := array_of_array? hv
        exact ih _ (sizeOf_item hv hw) (h.item hw) rfl
      · obtain rfl := array_of_array? hv
        exact .list hws
    | dictionary keys values info =>
      refine Schema.editEnds_dictionary (r := r.Renames S values)
        (p := fun es fs => fs = es.map fun e => (r.text keys e.1, e.2))
        (fun hv => .of_nil fun path => ?_) (fun es hv path s _ => ?_)
        (fun es fs hv hfs e' he' => ?_) fun es fs gs hv hfs hgs => ?_
      · rw [Schema.named_dictionary, hv]
      · obtain rfl := object_of_object? hv
        refine keys_end place owner h.objects.1 ?_ path s
        rintro special nullable info' rfl
        exact h.apart special nullable info' values info es .here
      · obtain rfl := object_of_object? hv
        obtain rfl := hfs
        obtain ⟨e, he, rfl⟩ := List.mem_map.1 he'
        have hvalue : r.Suits S values e.2 := h.value he
        exact ih _ (sizeOf_entry hv he).2 hvalue rfl
      · obtain rfl := object_of_object? hv
        obtain rfl := hfs
        exact .dictionary hr h.spares.1 (List.forall₂_map_left_iff.1 hgs)
    | object fields info =>
      refine Schema.editEnds_object (r := r.Renames S) h.loneFree.1 h.distinct.1
        (fun hv => .of_nil fun path => ?_) (fun es hv f hf w hw => ?_) fun es fs hv ht => ?_
      · rw [Schema.named_object path info v h.loneFree.1, hv]
      · obtain rfl := object_of_object? hv
        exact ih _ (sizeOf_entry hv (mem_of_lookup hw)).2 (h.field hf hw) rfl
      · obtain rfl := object_of_object? hv
        exact .of_object (named_of_touched h.loneFree.1 ht)
    | component kind info =>
      obtain ⟨c, hc⟩ := Option.isSome_iff_exists.1 h.checked
      refine Schema.editEnds_component (p := (· = v)) hc (fun path s hs => .keep rfl hs) ?_ ?_
      · rintro w rfl ho
        refine .of_nil fun path => ?_
        rw [Schema.named_component path info w hK.grounded hc, ho]
        rfl
      · rintro w rfl ho
        obtain ⟨es, hv⟩ := Option.isSome_iff_exists.1 ho
        obtain rfl := object_of_object? hv
        rcases hl : (c.classAt (.object es)).fields.lone? with _ | spec
        · refine Schema.editEnds_object (r := r.Renames S) hl (hD.classAt hc _).1
            (fun hv => nomatch hv) (fun es' hv' f hf w hw => ?_) fun es' fs hv' ht => ?_
          · obtain rfl := Option.some.inj hv'
            exact ih _ (sizeOf_entry hv (mem_of_lookup hw)).2
              (h.classAt hS hD hK hr hc hf hw) rfl
          · obtain rfl := Option.some.inj hv'
            exact .component hK hc hl ht
        · obtain ⟨options, info', rfl⟩ :=
            Schema.enum_of_lone (fun c hd => (hK.loneFree c hd).1) hc (.object es) hl
          exact Schema.editEnds_lone hl
            (Schema.editEnds_terminal fun path s hs => .keep (.untagged hK hc hl) trivial)

end Walk

end Renaming

end ScriptSchema
