import ScriptSchema.Proofs.KeyRenaming
import ScriptSchema.Proofs.Reordering

/-!
# Fields that are written over others

Fields are set one by one, written over other fields, or gathered from pairs. However they come
about, no name is declared twice, and that makes them an ordered map: they are told by their names,
in order, and by what is found under each. Writing fields over others is then a monoid, in which
later fields win and earlier names keep their places.

* `Entries.Distinct.ext`: entries are told by their keys and by what is found under them;
* `keys_overlay_of_distinct`, `lookup_overlay_of_distinct`: both, of entries over others;
* **`overlay_assoc`**, `nil_overlay`, `overlay_self`, `ofPairs_append`: the laws of writing over;
* `Fields.Built`, `built_iff_distinct`: fields that were put together;
* `Fields.OverlayLaws`, **`overlayLaws_of_built`**: they obey these laws.
-/

namespace ScriptSchema

namespace Entries

variable {α : Type} {a b c : Entries α}

/-! ## Entries without repeated keys -/

theorem eraseDups_of_nodup {names : List String} (h : names.Nodup) : names.eraseDups = names := by
  induction names with
  | nil => rfl
  | cons name names ih =>
    obtain ⟨hn, hnames⟩ := List.nodup_cons.1 h
    have hkept : names.filter (fun other => !other == name) = names :=
      List.filter_eq_self.2 fun other ho => by
        have hne : other ≠ name := fun he => hn (he ▸ ho)
        simp [hne]
    rw [List.eraseDups_cons, hkept, ih hnames]

theorem lookup_eq_none_iff {key : String} : a.lookup key = none ↔ key ∉ a.keys := by
  rw [← has_iff, has, Option.not_isSome_iff_eq_none]

/-- If no key is repeated, it does not matter from which end one looks. -/
theorem Distinct.lookup_reverse (h : a.Distinct) (key : String) :
    a.reverse.lookup key = a.lookup key :=
  (lookup_eq_of_perm h (List.reverse_perm a).symm key).symm

/-- **Entries without repeated keys are told by their keys, in order, and by what is found under
each.** -/
theorem Distinct.ext (ha : a.Distinct) (hkeys : a.keys = b.keys)
    (hlookup : ∀ key, a.lookup key = b.lookup key) : a = b := by
  induction a generalizing b with
  | nil => exact (List.map_eq_nil_iff.1 hkeys.symm).symm
  | cons e a ih =>
    cases b with
    | nil => nomatch hkeys
    | cons f b =>
      obtain ⟨k, x⟩ := e
      obtain ⟨l, y⟩ := f
      obtain ⟨rfl, hrest⟩ : k = l ∧ keys a = keys b := List.cons.inj hkeys
      obtain ⟨hk, ha⟩ : k ∉ keys a ∧ Distinct a := List.nodup_cons.1 ha
      have hx : x = y := by
        have h := hlookup k
        rw [List.lookup_cons_self, List.lookup_cons_self] at h
        exact Option.some.inj h
      -- the first key is none of the others, so that looking there finds nothing
      have htail : ∀ key, a.lookup key = b.lookup key := by
        intro key
        by_cases hkey : key = k
        · rw [hkey, lookup_eq_none_iff.2 hk, lookup_eq_none_iff.2 (hrest ▸ hk)]
        · have h := hlookup key
          rwa [List.lookup_cons, List.lookup_cons, beq_eq_false_iff_ne.2 hkey] at h
      rw [hx, ih ha hrest htail]

/-! ## Entries over others -/

/-- New keys are added as they stand. -/
theorem keys_overlay_of_distinct (hb : b.Distinct) :
    (a.overlay b).keys = a.keys ++ b.keys.filter fun key => decide (key ∉ a.keys) := by
  rw [keys_overlay, eraseDups_of_nodup (List.Nodup.filter _ hb)]

/-- What is written over wins. -/
theorem lookup_overlay_of_distinct (hb : b.Distinct) (key : String) :
    (a.overlay b).lookup key = (b.lookup key).or (a.lookup key) := by
  rw [lookup_overlay, hb.lookup_reverse]

theorem mem_keys_overlay {key : String} :
    key ∈ (a.overlay b).keys ↔ key ∈ a.keys ∨ key ∈ b.keys := by
  rw [keys_overlay, List.mem_append, List.mem_eraseDups, List.mem_filter, decide_eq_true_eq]
  by_cases h : key ∈ a.keys <;> simp [h]

theorem nil_overlay (ha : a.Distinct) : overlay [] a = a := ofPairs_of_nodup ha

/-- **Writing over is associative.** -/
theorem overlay_assoc (ha : a.Distinct) (hb : b.Distinct) (hc : c.Distinct) :
    (a.overlay b).overlay c = a.overlay (b.overlay c) := by
  have hbc : (b.overlay c).Distinct := hb.overlay c
  refine Distinct.ext ((ha.overlay b).overlay c) ?_ fun key => ?_
  · have hnew : (c.keys.filter fun key => decide (key ∉ (a.overlay b).keys)) =
        (c.keys.filter fun key => decide (key ∉ b.keys)).filter
          fun key => decide (key ∉ a.keys) := by
      rw [List.filter_filter]
      refine List.filter_congr fun key _ => ?_
      rw [← Bool.decide_and, decide_eq_decide, mem_keys_overlay, not_or]
    rw [keys_overlay_of_distinct hc, keys_overlay_of_distinct hbc, hnew,
      keys_overlay_of_distinct hb, keys_overlay_of_distinct hc, List.filter_append,
      List.append_assoc]
  · rw [lookup_overlay_of_distinct hc, lookup_overlay_of_distinct hb,
      lookup_overlay_of_distinct hbc, lookup_overlay_of_distinct hc, Option.or_assoc]

theorem overlay_self (ha : a.Distinct) : a.overlay a = a := by
  refine Distinct.ext (ha.overlay a) ?_ fun key => ?_
  · have hnone : (a.keys.filter fun key => decide (key ∉ a.keys)) = [] :=
      List.filter_eq_nil_iff.2 fun key hk => by simpa using hk
    rw [keys_overlay_of_distinct ha, hnone, List.append_nil]
  · rw [lookup_overlay_of_distinct ha, Option.or_self]

/-- Gathering the entries of both is writing the second over the first. -/
theorem ofPairs_append (ha : a.Distinct) (b : Entries α) : ofPairs (a ++ b) = a.overlay b := by
  calc ofPairs (a ++ b) = (overlay [] a).overlay b := List.foldl_append
    _ = a.overlay b := by rw [nil_overlay ha]

end Entries

/-! ## Fields that were put together -/

namespace Fields

/-- The fields were put together: set by name, written over others, or gathered from pairs. -/
inductive Built : Fields → Prop
  | empty : Built []
  | put {fields : Fields} (name : String) (spec : Spec) : Built fields →
    Built (fields.put name spec)
  | overlay {fields upper : Fields} : Built fields → Built upper → Built (fields.overlay upper)
  | ofPairs (pairs : List (String × Spec)) : Built (Entries.ofPairs pairs)

theorem Built.distinct {fields : Fields} (h : Built fields) : Entries.Distinct fields := by
  induction h with
  | empty => exact List.nodup_nil
  | put name spec _ ih => exact ih.put name spec
  | overlay _ _ ih _ => exact ih.overlay _
  | ofPairs pairs => exact Entries.distinct_ofPairs pairs

/-- Fields can be put together just if no name is declared twice. -/
theorem built_iff_distinct {fields : Fields} : Built fields ↔ Entries.Distinct fields := by
  refine ⟨Built.distinct, fun h => ?_⟩
  rw [← Entries.ofPairs_of_nodup h]
  exact .ofPairs fields

/-- The laws of an ordered map whose fields can be written over each other. -/
structure OverlayLaws (a b c : Fields) : Prop where
  /-- No name is declared twice. -/
  distinct : Entries.Distinct a
  assoc : (a.overlay b).overlay c = a.overlay (b.overlay c)
  nil_left : Entries.overlay [] a = a
  nil_right : a.overlay [] = a
  self : a.overlay a = a
  /-- A field of the upper layer wins. -/
  lookup : ∀ name, (a.overlay b).lookup name = if b.has name then b.lookup name else a.lookup name
  /-- The names of the lower layer come first, and stay in order. -/
  keys : a.keys <+: (a.overlay b).keys
  /-- Gathering the fields of both layers is writing the upper one over the lower one. -/
  gather : Entries.ofPairs (a ++ b) = a.overlay b

/-- **Fields that were put together form a monoid of ordered maps** under writing over. -/
theorem overlayLaws_of_built {a b c : Fields} (ha : Built a) (hb : Built b) (hc : Built c) :
    OverlayLaws a b c where
  distinct := ha.distinct
  assoc := Entries.overlay_assoc ha.distinct hb.distinct hc.distinct
  nil_left := Entries.nil_overlay ha.distinct
  nil_right := rfl
  self := Entries.overlay_self ha.distinct
  lookup name := by
    rw [Entries.lookup_overlay_of_distinct hb.distinct, Entries.has]
    rcases List.lookup name b with _ | spec <;> rfl
  keys := by
    rw [Entries.keys_overlay]
    exact List.prefix_append _ _
  gather := Entries.ofPairs_append ha.distinct b

/-- What animals have in common, with the field of their family declared by hand. -/
def animal : Fields :=
  [("family", .terminal (.scalar .string) ⟨true, none⟩),
    ("name", .terminal (.scalar .string) .plain)]

/-- What snakes declare: the name once more, and another field. -/
def snake : Fields :=
  [("name", .terminal (.scalar .name) .plain),
    ("isVenomous", .terminal (.scalar .boolean) ⟨true, none⟩)]

/-- What adders declare: a field of snakes with a help text, and another one in front of it. -/
def adder : Fields :=
  [("pattern", .terminal (.scalar .string) .plain),
    ("isVenomous", .terminal (.scalar .boolean) ⟨true, some "Adders are."⟩)]

theorem overlayLaws_adder : Built animal ∧ Built snake ∧ Built adder ∧
    OverlayLaws animal snake adder := by
  have ha : Built animal := built_iff_distinct.2 (by decide)
  have hs : Built snake := built_iff_distinct.2 (by decide)
  have hd : Built adder := built_iff_distinct.2 (by decide)
  exact ⟨ha, hs, hd, overlayLaws_of_built ha hs hd⟩

end Fields

end ScriptSchema
