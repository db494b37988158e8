import ScriptSchema.Proofs.Edges
import ScriptSchema.Proofs.Onward
import ScriptSchema.Proofs.Referrers

/-!
# The address of a visit

Where a walk to terminal values visits something can be told from the resource, the path, and
whether it is a key. No two visits agree in all three, unless a field of a resource has no name, or
a key of a dictionary looks like another of its keys and a way onwards.

* `Spec.Named`, `Schema.Names`: the names of all fields;
* `Schema.Opens`, `opensIn_of_names`: a resource has no field without a name;
* `Schema.KeysTell`, `keysTellIn_of_everyObject`: no key looks like another and a way onwards;
* `Marked`, `Marked.each`: visits below a path that can be told apart;
* `marked_descent`: walks through a value;
* **`nodup_addresses`**: walks through a script;
* `not_nodup_addresses`: neither condition can be left out.
-/

namespace ScriptSchema

/-! ## The names of fields -/

namespace Spec

mutual

/-- The names of all fields in the spec are as `p` says. -/
def Named (p : String → Prop) : Spec → Prop
  | terminal _ _ => True
  | list items _ => items.Named p
  | dictionary keys values _ => keys.Named p ∧ values.Named p
  | object fields _ => (∀ name ∈ Entries.keys fields, p name) ∧ EachNamed p fields
  | component _ _ => True

/-- The names of all fields in the specs of some fields are such. -/
def EachNamed (p : String → Prop) : List (String × Spec) → Prop
  | [] => True
  | (_, spec) :: fields => spec.Named p ∧ EachNamed p fields

end

variable {p : String → Prop}

theorem eachNamed_iff {fields : Fields} : EachNamed p fields ↔ ∀ f ∈ fields, f.2.Named p := by
  induction fields with
  | nil => simp [EachNamed]
  | cons f fields ih => rw [EachNamed, ih, List.forall_mem_cons]

theorem Named.field {fields : Fields} {info : Info} (h : (object fields info).Named p)
    {f : String × Spec} (hf : f ∈ fields) : p f.1 ∧ f.2.Named p :=
  ⟨h.1 f.1 (List.mem_map_of_mem hf), eachNamed_iff.1 h.2 f hf⟩

end Spec

namespace Schema

variable {S : Schema} {p : String → Prop}

variable (S p) in
/-- The names of all fields in the schema are as `p` says. -/
def Names : Prop := ∀ c, S.Describes c → (Spec.object c.fields .plain).Named p

theorem eq_nil_or_singleton_untagged (c : Component) :
    c.untagged.fields = [] ∨ ∃ f, c.untagged.fields = [f] := by
  unfold Component.untagged Component.tagFields
  dsimp only
  split
  · exact .inr ⟨_, rfl⟩
  · exact .inl rfl

/-- The tag of a component is a field of its variants. -/
theorem Names.untagged (h : S.Names p) {kind : String} {c : Component}
    (hc : S.components.find? kind = some c) : (Spec.object c.untagged.fields .plain).Named p := by
  obtain ⟨⟨name, own⟩, variants, hv⟩ := List.exists_cons_of_ne_nil c.variants_ne
  have hlookup : c.variants.lookup name = some own := by rw [hv, List.lookup_cons_self]
  have hvariant := Component.variant?_eq_some hlookup
  refine ⟨fun tag ht => ?_, Spec.eachNamed_iff.2 fun f hf => ?_⟩
  · refine (h _ (.variant hc hvariant)).1 tag ?_
    rw [Entries.keys_overlay, Entries.keys_overlay]
    exact List.mem_append_left _ (List.mem_append_left _ ht)
  · obtain ⟨options, info, he⟩ := enum_of_mem_untagged hf
    rw [he]
    trivial

theorem Names.below (hn : S.Names p) {a : Bool} {spec spec' : Spec} {v v' : Value}
    (h : spec.Named p) (hb : S.Below a spec v spec' v') : spec'.Named p := by
  cases hb with
  | item => exact h
  | key => exact h.1
  | value => exact h.2
  | lone hl =>
    obtain ⟨_, hf⟩ := Spec.mem_of_lone hl
    exact (h.field hf).2
  | field _ hf => exact (h.field hf).2
  | variant hc _ hx => exact hn _ (.variant hc hx)

theorem Names.reaches (hn : S.Names p) {b : Bool} {spec spec' : Spec} {v v' : Value}
    (h : spec.Named p) (hr : S.Reaches b spec v spec' v') : spec'.Named p := by
  induction hr with
  | here => exact h
  | step hb _ ih => exact ih (hn.below h hb)

/-- What a declaration without repetitions leads to has none either. -/
theorem Distinct.below (hD : S.Distinct) {a : Bool} {spec spec' : Spec} {v v' : Value}
    (h : spec.Distinct) (hb : S.Below a spec v spec' v') : spec'.Distinct := by
  cases hb with
  | item => exact h
  | key => exact h.1
  | value => exact h.2
  | lone hl => exact h.lone hl
  | field _ hf => exact Spec.eachDistinct_iff.1 h.2 _ hf
  | variant hc _ hx => exact hD _ (.variant hc hx)

/-- A variant that is chosen describes the instance. -/
theorem below_component {kind : String} (info : Info) {es : Entries Value} {c : Component}
    (hc : S.components.find? kind = some c)
    (hf : c.comparedFields? (.object es) = some (c.classAt (.object es)).fields) :
    S.Below true (.component kind info) (.object es)
      (.object (c.classAt (.object es)).fields .plain) (.object es) := by
  obtain ⟨variant, chosen, hv, hx, hfields⟩ := Component.comparedFields?_eq_some_iff.1 hf
  rw [← hfields]
  exact .variant hc hv hx

/-! ## Fields of whole resources -/

variable (S) in
/-- The fields by which the spec describes the value itself, and not a part of it, have names. -/
def Opens (spec : Spec) (v : Value) : Prop :=
  ∀ fields info, S.Reaches true spec v (.object fields info) v → ∀ f ∈ fields, f.1 ≠ ""

variable (S) in
/-- The same of every resource that a walk through a script goes through. -/
def OpensIn (d : Script) : Prop :=
  ∀ entry ∈ d.entries, ∀ c vs, S.Collects entry c vs →
    ∀ v ∈ vs, S.Opens (.object c.fields .plain) v

/-- It is enough that all fields have names. -/
theorem opensIn_of_names (h : S.Names (· ≠ "")) (d : Script) : S.OpensIn d :=
  fun _ _ _ _ hc _ _ _ _ hr _ hf => ((h.reaches (h _ hc.describes) hr).field hf).1

theorem Opens.below {spec spec' : Spec} {v : Value} (h : S.Opens spec v)
    (hb : S.Below true spec v spec' v) : S.Opens spec' v :=
  fun _ _ hr => h _ _ (.step hb hr)

/-! ## Keys that can be told apart -/

variable (S) in
/-- In no dictionary of values with parts that a walk comes to does a key look like another one and
a way onwards. -/
def KeysTell (spec : Spec) (v : Value) : Prop :=
  ∀ keys values info (es : Entries Value), S.Reaches true spec v (.dictionary keys values info)
    (.object es) → values.terminal? = none → ∀ k ∈ es.keys, ∀ k' ∈ es.keys, ¬ Path.Continues k k'

variable (S) in
/-- The same of every resource that a walk through a script goes through. -/
def KeysTellIn (d : Script) : Prop :=
  ∀ entry ∈ d.entries, ∀ c vs, S.Collects entry c vs →
    ∀ v ∈ vs, S.KeysTell (.object c.fields .plain) v

/-- Keys can be told apart if none has a closing bracket. -/
theorem keysTellIn_of_everyObject {d : Script}
    (h : d.value.EveryObject fun keys => ∀ k ∈ keys, ']' ∉ k.toList) : S.KeysTellIn d := by
  intro entry he c vs hc v hv keys values info es hr _ k _ k' hk'
  have hentry := Value.everyEntry_iff.1 h.2 entry he
  rw [hc.array] at hentry
  have hobjects := (Value.everyItem_iff.1 hentry v hv).reaches hr
  exact Path.not_continues (hobjects.1 k' hk')

/-! ## What the walk goes by -/

/-- What is asked of a spec and a value, so that the visits can be told apart. -/
structure Telling (S : Schema) (spec : Spec) (v : Value) : Prop where
  distinct : spec.Distinct
  plain : spec.Named Path.Plain
  objects : v.EveryObject List.Nodup
  keys : S.KeysTell spec v

theorem Telling.below (hD : S.Distinct) (hp : S.Names Path.Plain) {spec spec' : Spec} {v v' : Value}
    (h : S.Telling spec v) (hb : S.Below true spec v spec' v') : S.Telling spec' v' where
  distinct := hD.below h.distinct hb
  plain := hp.below h.plain hb
  objects := h.objects.below hb
  keys _ _ _ _ hr := h.keys _ _ _ _ (.step hb hr)

end Schema

/-! ## Visits that can be told apart -/

/-- Where something is visited within a value, and whether it is a key. -/
def Visit.mark (visit : Visit) : String × Bool := (visit.path, visit.onKey)

/-- Where something is visited in a script, and whether it is a key. -/
def Finding.address (f : Finding) : Place × String × Bool := (f.place, f.visit.mark)

/-- The visits of a walk that starts at a path lie there or lead on from there, unless the path is
empty, and what lies there is no key. They can be told apart. -/
structure Marked (path : String) (t : Trace Visit) : Prop where
  onward : path ≠ "" → t.Sees fun x => Path.Onward path x.path ∧ (x.path = path → x.onKey = false)
  apart : t.seen.Pairwise fun x y => x.mark ≠ y.mark

namespace Marked

variable {path : String}

theorem nil : Marked path .nil where
  onward _ := Trace.sees_nil
  apart := .nil

theorem single {p : String} (h : path ≠ "" → Path.Onward path p) (spec : Spec) (v : Value) :
    Marked path (.ofList [⟨p, spec, false, v⟩]) where
  onward hp := Trace.sees_ofList.2 (List.forall_mem_singleton.2 ⟨h hp, fun _ => rfl⟩)
  apart := List.pairwise_singleton _ _

/-- Parts that are walked through one after the other, each from a path of its own that can be told
from those of the others. -/
theorem each {β : Type} {f : β → Trace Visit} (sub : β → String) {bs : List β}
    (h : ∀ b ∈ bs, Marked (sub b) (f b)) (hne : ∀ b ∈ bs, sub b ≠ "")
    (hon : path ≠ "" → ∀ b ∈ bs, ∀ p, Path.Onward (sub b) p → Path.Onward path p ∧ p ≠ path)
    (hp : bs.Pairwise fun b c => ∀ p, Path.Onward (sub b) p → ¬ Path.Onward (sub c) p) :
    Marked path (.each f bs) where
  onward hpath := .each fun b hb x hx => by
    obtain ⟨ho, hx⟩ := hon hpath b hb x.path ((h b hb).onward (hne b hb) x hx).1
    exact ⟨ho, fun he => absurd he hx⟩
  apart := by
    refine Trace.pairwise_each (fun b hb => (h b hb).apart)
      (hp.imp_of_mem fun {b c} hb hc hbc x hx y hy hxy => ?_)
    have hpath : x.path = y.path := congrArg Prod.fst hxy
    have hon := ((h b hb).onward (hne b hb) x hx).1
    exact hbc x.path hon (hpath ▸ ((h c hc).onward (hne c hc) y hy).1)

/-- Entries that are visited themselves, under keys that are not the same. -/
theorem ofEntries {β : Type} {g : β → Visit} {key : β → String} {bs : List β}
    (hg : ∀ b, (g b).path = Path.entry path (key b)) (hp : bs.Pairwise fun b c => key b ≠ key c) :
    Marked path (.ofList (bs.map g)) where
  onward _ := Trace.sees_ofList.2 <| List.forall_mem_map.2 fun b _ => by
    obtain ⟨ho, hne⟩ := (Path.Onward.refl (Path.entry path (key b))).of_entry
    rw [hg b]
    exact ⟨ho, fun he => absurd he hne⟩
  apart := List.pairwise_map.2 <| hp.imp fun {b c} hne hx => by
    have hpath : (g b).path = (g c).path := congrArg Prod.fst hx
    rw [hg b, hg c] at hpath
    exact hne (Path.entry_inj.1 hpath)

theorem append {t u : Trace Visit} (ht : Marked path t) (hu : Marked path u)
    (h : ∀ x ∈ t.seen, ∀ y ∈ u.seen, x.mark ≠ y.mark) : Marked path (t ++ u) where
  onward hpath := .append (ht.onward hpath) (hu.onward hpath)
  apart := Trace.pairwise_append ht.apart hu.apart h

end Marked

namespace Path

theorem entry_ne (path key : String) : entry path key ≠ "" := by
  intro h
  have hl := congrArg String.toList h
  rw [toList_entry] at hl
  simp at hl

theorem field_ne {path name : String} (h : path = "" → name ≠ "") : field path name ≠ "" := by
  by_cases hp : path = ""
  · rw [field, if_pos hp]
    exact h hp
  · rw [field_of_ne hp]
    exact append_ne_empty (append_ne_empty hp _) _

end Path

theorem Trace.each_single {α β : Type} (g : β → α) (bs : List β) :
    each (fun b => ofList [g b]) bs = ofList (bs.map g) := by
  induction bs with
  | nil => rfl
  | cons b bs ih =>
    rw [each, ih]
    rfl

namespace Schema

variable {S : Schema}

/-! ## Dictionaries -/

section Dictionary

variable {keys values : Spec} {info : Info} {es : Entries Value}

theorem marked_keyVisits (hd : es.Distinct) (path : String) :
    Marked path (keyVisits .terminal path keys es) := by
  unfold keyVisits
  split
  · exact .ofEntries (fun _ => rfl) hd
  · exact .nil

/-- What is visited in the values can be told apart, and from the keys. -/
def ToldFromKeys (path : String) (es : Entries Value) (t : Trace Visit) : Prop :=
  Marked path t ∧ t.Sees fun x => x.onKey = true → ∀ k ∈ es.keys, x.path ≠ Path.entry path k

/-- Values without parts are visited where they lie. -/
theorem told_terminal (hd : es.Distinct) (path : String) (t : Terminal) :
    ToldFromKeys path es
      (.each (fun e => S.visits .terminal (Path.entry path e.1) (.terminal t info) e.2) es) := by
  have hseen : Trace.each (fun e : String × Value =>
      S.visits .terminal (Path.entry path e.1) (.terminal t info) e.2) es =
        .ofList (es.map fun e => ⟨Path.entry path e.1, .terminal t info, false, e.2⟩) := by
    rw [← Trace.each_single]
    exact Trace.each_congr fun e _ => S.visitsWhile_terminal .terminal [] _ t info e.2
  rw [hseen]
  refine ⟨.ofEntries (fun _ => rfl) (List.pairwise_map.1 hd),
    Trace.sees_ofList.2 (List.forall_mem_map.2 fun e _ => nofun)⟩

/-- Where values have parts, the path to a part tells the key. -/
theorem told_parts (hd : es.Distinct) (path : String)
    (hk : ∀ k ∈ es.keys, ∀ k' ∈ es.keys, ¬ Path.Continues k k')
    (ih : ∀ e ∈ es, Marked (Path.entry path e.1)
      (S.visits .terminal (Path.entry path e.1) values e.2)) :
    ToldFromKeys path es
      (.each (fun e => S.visits .terminal (Path.entry path e.1) values e.2) es) := by
  have hmem {e : String × Value} (he : e ∈ es) : e.1 ∈ es.keys := List.mem_map_of_mem he
  have hpairs : es.Pairwise fun e e' => e.1 ≠ e'.1 := List.pairwise_map.1 hd
  have hapart : es.Pairwise fun e e' =>
      ∀ p, Path.Onward (Path.entry path e.1) p → ¬ Path.Onward (Path.entry path e'.1) p :=
    hpairs.imp_of_mem fun he he' hne p ho ho' =>
      hne (Path.key_eq_of_onward (hk _ (hmem he) _ (hmem he')) (hk _ (hmem he') _ (hmem he)) ho ho')
  constructor
  · exact .each (fun e : String × Value => Path.entry path e.1) ih
      (fun e _ => Path.entry_ne path e.1) (fun _ e _ p ho => ho.of_entry) hapart
  · refine Trace.Sees.each fun e he x hx hkey k hkmem hpath => ?_
    obtain ⟨ho, hvalue⟩ := (ih e he).onward (Path.entry_ne path e.1) x hx
    have hsame : k = e.1 := by
      rw [hpath] at ho
      exact Path.key_eq_of_onward (hk _ hkmem _ (hmem he)) (hk _ (hmem he) _ hkmem) (.refl _) ho
    rw [hsame] at hpath
    nomatch hkey.symm.trans (hvalue hpath)

theorem marked_dictionary (h : S.Telling (.dictionary keys values info) (.object es))
    (path : String)
    (ih : ∀ e ∈ es, Marked (Path.entry path e.1)
      (S.visits .terminal (Path.entry path e.1) values e.2)) :
    Marked path (keyVisits .terminal path keys es ++
      .each (fun e => S.visits .terminal (Path.entry path e.1) values e.2) es) := by
  have hd : es.Distinct := h.objects.1
  have hvalues : ToldFromKeys path es
      (.each (fun e => S.visits .terminal (Path.entry path e.1) values e.2) es) := by
    rcases ht : values.terminal? with _ | t
    · exact told_parts hd path (h.keys _ _ _ _ .here ht) ih
    · cases values with
      | terminal t info => exact told_terminal hd path t
      | _ => nomatch ht
  refine (marked_keyVisits hd path).append hvalues.1 fun x hx y hy hxy => ?_
  unfold keyVisits at hx
  split at hx
  · obtain ⟨k, hk, rfl⟩ := List.mem_map.1 hx
    obtain ⟨hpath, hkey⟩ := Prod.mk.inj hxy
    exact hvalues.2 y hy hkey.symm k hk hpath.symm
  · nomatch hx

end Dictionary

/-! ## Walks through a value -/

/-- In what has not chosen a variant, only the tag is visited, and its field may have no name. -/
theorem marked_untagged {c : Component}
    (hp : (Spec.object c.untagged.fields .plain).Named Path.Plain) (present : List String)
    (path : String) (v : Value) :
    Marked path (S.fieldVisitsWhile .terminal present path c.untagged.fields v) := by
  rw [fieldVisitsWhile_eq]
  rcases hl : c.untagged.fields.lone? with _ | spec
  · dsimp only
    rcases v.object? with _ | es
    · exact .nil
    rcases eq_nil_or_singleton_untagged c with hnil | ⟨f, hone⟩
    · rw [hnil]
      exact .nil
    have hf : f ∈ c.untagged.fields := hone ▸ List.mem_singleton_self f
    obtain ⟨options, info, he⟩ := enum_of_mem_untagged hf
    dsimp only
    rw [hone, Trace.each, Trace.each, Trace.append_nil, he]
    rcases es.lookup f.1 with _ | w
    · exact .nil
    · rw [Option.elim_some, visits, visitsWhile_terminal]
      exact .single (fun hpath => ((Path.Onward.refl _).of_field hpath (hp.field hf).1).1) _ w
  · obtain ⟨name, hf⟩ := Spec.mem_of_lone hl
    obtain ⟨options, info, rfl⟩ := enum_of_mem_untagged hf
    dsimp only
    rw [visitsWhile_terminal]
    exact .single (fun _ => .refl path) _ v

/-- A resource starts with an empty path, and there the names of its fields count. -/
theorem marked_descent (hD : S.Distinct) (hp : S.Names Path.Plain) :
    S.Descent
      (fun present spec v => S.Telling spec v → ∀ path, (path = "" → S.Opens spec v) →
        Marked path (S.visitsWhile .terminal present path spec v))
      (fun present fields v => ∀ info, S.Telling (.object fields info) v →
        ∀ path, (path = "" → S.Opens (.object fields info) v) →
        Marked path (S.fieldVisitsWhile .terminal present path fields v)) where
  terminal present t info v _ path _ := by
    rw [visitsWhile_terminal]
    exact .single (fun _ => .refl path) _ v
  list present items info v ih h path _ := by
    rw [visitsWhile_list_eq]
    rcases hv : v.array? with _ | vs
    · exact .nil
    obtain rfl := array_of_array? hv
    refine .each (fun m : Value × Nat => Path.item path m.2) (fun m hm => ?_)
      (fun m _ => Path.entry_ne path _)
      (fun _ m _ p ho => ho.of_entry) ((pairwise_zipIdx vs).imp fun hne p hi hj => ?_)
    · have hw := List.fst_mem_of_mem_zipIdx hm
      exact ih vs hv m.1 hw (h.below hD hp (.item hw)) _ fun hnil =>
        absurd hnil (Path.entry_ne path _)
    · exact hne (Path.index_eq_of_onward hi hj)
  dictionary present keys values info v ih h path _ := by
    rw [visitsWhile_dictionary_eq]
    rcases hv : v.object? with _ | es
    · exact .nil
    obtain rfl := object_of_object? hv
    refine marked_dictionary h path fun e he => ?_
    exact (ih es rfl e he).2 (h.below hD hp (.value he)) _ fun hnil =>
      absurd hnil (Path.entry_ne path _)
  object present fields info v ih h path ho := by
    rw [visitsWhile_object]
    exact ih info h path ho
  component present kind info v ih h path ho := by
    rw [visitsWhile_component_eq]
    change Marked path (Trace.nil ++ _)
    rw [Trace.nil_append]
    rcases hc : S.components.find? kind with _ | c
    · exact ⟨fun _ => nofun, .nil⟩
    dsimp only
    split
    · rename_i hobject
      split
      · exact ⟨fun _ => nofun, .nil⟩
      rename_i hk
      cases v with
      | object es =>
        obtain hf | hu := comparedFields?_or_untagged c (.object es)
        · have hb := below_component info hc hf
          exact ih c hc hk _ .plain (h.below hD hp hb) path fun hnil => (ho hnil).below hb
        · rw [hu]
          exact marked_untagged (hp.untagged hc) _ path _
      | _ => nomatch hobject
    · exact .nil
  fields present fields v lone parts info h path ho := by
    rw [fieldVisitsWhile_eq]
    rcases hl : fields.lone? with _ | spec
    · dsimp only
      rcases hv : v.object? with _ | es
      · exact .nil
      obtain rfl := object_of_object? hv
      have hnames : fields.Pairwise fun f g => f.1 ≠ g.1 := List.pairwise_map.1 h.distinct.1
      have hplain (f) (hf : f ∈ fields) : Path.Plain f.1 := (h.plain.field hf).1
      have hne (f) (hf : f ∈ fields) : Path.field path f.1 ≠ "" :=
        Path.field_ne fun hnil => ho hnil _ _ .here f hf
      have hapart : fields.Pairwise fun f g =>
          ∀ p, Path.Onward (Path.field path f.1) p → ¬ Path.Onward (Path.field path g.1) p :=
        hnames.imp_of_mem fun hf hg hne p ho ho' =>
          hne (Path.name_eq_of_onward (hplain _ hf) (hplain _ hg) ho ho')
      refine .each (fun f : String × Spec => Path.field path f.1) (fun f hf => ?_)
        hne (fun hpath f hf p ho => ho.of_field hpath (hplain f hf)) hapart
      rcases hw : es.lookup f.1 with _ | w
      · exact .nil
      · exact parts es rfl f hf w hw (h.below hD hp (.field hl hf hw)) _ fun hnil =>
          absurd hnil (hne f hf)
    · exact lone spec hl (h.below hD hp (.lone hl)) path fun hnil => (ho hnil).below (.lone hl)

/-! ## Walks through a script -/

/-- Where something is visited in a resource can be told, whatever resource that is. -/
theorem apart_entryFindings (hD : S.Distinct) (hp : S.Names Path.Plain)
    {entry : String × Value} (hv : entry.2.EveryObject List.Nodup)
    (ho : ∀ c vs, S.Collects entry c vs → ∀ v ∈ vs, S.Opens (.object c.fields .plain) v)
    (hk : ∀ c vs, S.Collects entry c vs → ∀ v ∈ vs, S.KeysTell (.object c.fields .plain) v) :
    (S.entryFindings .terminal entry).seen.Pairwise fun f g => f.address ≠ g.address := by
  by_cases h : ∃ c vs, S.Collects entry c vs
  · obtain ⟨c, vs, h⟩ := h
    rw [entryFindings_of_collects h]
    rw [h.array] at hv
    refine Trace.pairwise_each (fun m hm => ?_)
      ((pairwise_zipIdx vs).imp fun {m m'} hne f hf g hg hfg => hne ?_)
    · have hw : m.1 ∈ vs := List.fst_mem_of_mem_zipIdx hm
      have htell : S.Telling (.object c.fields .plain) m.1 :=
        ⟨hD c h.describes, hp c h.describes, Value.everyItem_iff.1 hv m.1 hw, hk c vs h m.1 hw⟩
      have hmarked := (marked_descent hD hp).fieldsOf [] c.fields m.1 .plain htell ""
        fun _ => ho c vs h m.1 hw
      exact List.pairwise_map.2 (hmarked.apart.imp fun hne he => hne (congrArg Prod.snd he))
    · obtain ⟨_, -, rfl⟩ := List.mem_map.1 hf
      obtain ⟨_, -, rfl⟩ := List.mem_map.1 hg
      exact congrArg (·.1.index) hfg
  · rw [entryFindings_of_not_collects fun c vs hc => h ⟨c, vs, hc⟩]
    exact .nil

/-- **Where something is visited in a script tells it apart from everything else that is visited**:
the collection, the position of the resource, the path, and whether it is a key. The names of fields
have no dots and brackets, no field of a resource is without a name, and no key looks like another
one and a way onwards. -/
theorem nodup_addresses (hD : S.Distinct) (hp : S.Names Path.Plain) {d : Script}
    (hd : d.value.EveryObject List.Nodup) (ho : S.OpensIn d) (hk : S.KeysTellIn d) :
    ((S.findings .terminal d).seen.map Finding.address).Nodup := by
  have hentries : d.entries.Pairwise fun e e' => e.1 ≠ e'.1 := List.pairwise_map.1 hd.1
  refine List.pairwise_map.2 (Trace.pairwise_each (fun entry he => ?_)
    (hentries.imp fun {e e'} hne f hf g hg hfg => hne ?_))
  · exact apart_entryFindings hD hp (Value.everyEntry_iff.1 hd.2 entry he) (ho entry he)
      (hk entry he)
  · rw [← collection_entryFindings .terminal e f hf, ← collection_entryFindings .terminal e' g hg]
    exact congrArg (·.1.collection) hfg

/-! ### Pages -/

/-- Pages with some fields. -/
def pages (fields : Fields) : Schema := empty.addResource "page" ⟨fields, none⟩

theorem eq_of_describes_pages {fields : Fields} {c : Class} (h : (pages fields).Describes c) :
    c = ⟨fields, none⟩ := by
  cases h with
  | resource h => exact (Prod.mk.inj (List.mem_singleton.1 h)).2
  | variant h => nomatch h

theorem distinct_pages {fields : Fields} (h : (Spec.object fields .plain).Distinct) :
    (pages fields).Distinct := fun c hc => by
  rw [eq_of_describes_pages hc]
  exact h

theorem names_pages {fields : Fields} {p : String → Prop}
    (h : (Spec.object fields .plain).Named p) : (pages fields).Names p := fun c hc => by
  rw [eq_of_describes_pages hc]
  exact h

/-- A text. -/
def text : Spec := .terminal (.scalar .string) .plain

/-- Notes by day and hour. -/
def diary : Fields := [("by", .dictionary text (.dictionary text text .plain) .plain)]

/-- A page with a note on each of two days. -/
def twoDays : Script :=
  ⟨[("pages", .array [
      .object [("by", .object [
        ("first", .object [("noon", .string "x")]),
        ("second", .object [("noon", .string "y")])])]])]⟩

theorem named_diary {p : String → Prop} (h : p "by") : (Spec.object diary .plain).Named p :=
  ⟨List.forall_mem_singleton.2 h, ⟨trivial, trivial, trivial⟩, trivial⟩

theorem distinct_diary : (pages diary).Distinct :=
  distinct_pages ⟨List.pairwise_singleton _ _, ⟨trivial, trivial, trivial⟩, trivial⟩

theorem nodup_addresses_twoDays :
    (pages diary).Distinct ∧ (pages diary).Names Path.Plain ∧
      twoDays.value.EveryObject List.Nodup ∧ (pages diary).OpensIn twoDays ∧
      (pages diary).KeysTellIn twoDays ∧
      (((pages diary).findings .terminal twoDays).seen.map Finding.address).Nodup := by
  have hp : (pages diary).Names Path.Plain := names_pages (named_diary (by simp [Path.Plain]))
  have hn : (pages diary).Names (· ≠ "") := names_pages (named_diary (by decide))
  have ho : (pages diary).OpensIn twoDays := opensIn_of_names hn twoDays
  have hd : twoDays.value.EveryObject List.Nodup := by
    simp [twoDays, Script.value, Value.EveryObject, Value.EveryItem, Value.EveryEntry, Entries.keys]
  have hk : (pages diary).KeysTellIn twoDays := keysTellIn_of_everyObject <| by
    simp [twoDays, Script.value, Value.EveryObject, Value.EveryItem, Value.EveryEntry, Entries.keys]
  exact ⟨distinct_diary, hp, hd, ho, hk, nodup_addresses distinct_diary hp hd ho hk⟩

/-- A page where the hour of the one day and the other day look alike. -/
def alike : Script :=
  ⟨[("pages", .array [
      .object [("by", .object [
        ("a", .object [("b][c", .string "x")]), ("a][b", .object [("c", .string "y")])])]])]⟩

/-- A text, and one in a part that has no name. -/
def unnamed : Fields := [("", .object [("f", text)] .plain), ("f", text)]

/-- A page with both texts. -/
def twoTexts : Script :=
  ⟨[("pages", .array [.object [("", .object [("f", .string "x")]), ("f", .string "y")]])]⟩

/-- Keys stand in a path as they are, and a field without a name leaves no mark there. -/
theorem not_nodup_addresses :
    (¬ ∀ (S : Schema) (d : Script), S.Distinct → S.Names Path.Plain →
      d.value.EveryObject List.Nodup → S.OpensIn d →
      ((S.findings .terminal d).seen.map Finding.address).Nodup) ∧
    ¬ ∀ (S : Schema) (d : Script), S.Distinct → S.Names Path.Plain →
      d.value.EveryObject List.Nodup → S.KeysTellIn d →
      ((S.findings .terminal d).seen.map Finding.address).Nodup := by
  constructor
  · intro h
    have hd : alike.value.EveryObject List.Nodup := by
      simp [alike, Script.value, Value.EveryObject, Value.EveryItem, Value.EveryEntry, Entries.keys]
    have hx : ((pages diary).findings .terminal alike).seen.map Finding.address =
        [(⟨"pages", 0⟩, "by[a]", true), (⟨"pages", 0⟩, "by[a][b]", true),
          (⟨"pages", 0⟩, "by[a][b][c]", true), (⟨"pages", 0⟩, "by[a][b][c]", false),
          (⟨"pages", 0⟩, "by[a][b][c]", true), (⟨"pages", 0⟩, "by[a][b][c]", false)] := by cbv
    have hnodup := h (pages diary) alike distinct_diary
      (names_pages (named_diary (by simp [Path.Plain]))) hd
      (opensIn_of_names (names_pages (named_diary (by decide))) alike)
    rw [hx] at hnodup
    exact absurd hnodup (by decide)
  · intro h
    have hp : (Spec.object unnamed .plain).Named Path.Plain :=
      ⟨by simp [unnamed, Path.Plain, Entries.keys],
        ⟨by simp [Path.Plain, Entries.keys], trivial, trivial⟩, trivial, trivial⟩
    have hu : (Spec.object unnamed .plain).Distinct :=
      ⟨by decide, ⟨by decide, trivial, trivial⟩, trivial, trivial⟩
    have hd : twoTexts.value.EveryObject List.Nodup := by
      simp [twoTexts, Script.value, Value.EveryObject, Value.EveryItem, Value.EveryEntry,
        Entries.keys]
    have hk : (pages unnamed).KeysTellIn twoTexts := keysTellIn_of_everyObject <| by
      simp [twoTexts, Script.value, Value.EveryObject, Value.EveryItem, Value.EveryEntry,
        Entries.keys]
    have hx : ((pages unnamed).findings .terminal twoTexts).seen.map Finding.address =
        [(⟨"pages", 0⟩, "f", false), (⟨"pages", 0⟩, "f", false)] := by cbv
    have hnodup := h (pages unnamed) twoTexts (distinct_pages hu) (names_pages hp) hd hk
    rw [hx] at hnodup
    exact absurd hnodup (by decide)

end Schema

end ScriptSchema
