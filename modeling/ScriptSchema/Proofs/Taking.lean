import ScriptSchema.Proofs.InPlace
import ScriptSchema.Proofs.Overlay

/-!
# Taking entries out of a row

A walk by fields can look up every entry under its name. It can also start with all entries of the
object in a row, and take out of the row what a field finds; the last entry of the row then moves to
the gap. The row gets shorter and is shuffled on the way, but both walks meet the same entries: just
those that are declared, in the order of the fields. So it does not matter in which order the object
has them.

* `perm_swapDelete`, `perm_put`: an object without an entry, and with another value in it;
* `Fields.found`, `Fields.Finds`: the entries that fields declare;
* `Edit.taking`, `Schema.takingVisits`: walks that take entries out of a row;
* `Entries.Row`, `Row.take`: the row holds what is still to be found;
* `declared_perm`: edits of an object in two orders;
* **`walks_in_any_order`**: walks through an object in any order.
-/

namespace ScriptSchema

/-! ## Entries that are taken out -/

namespace Entries

variable {α : Type} {es fs : Entries α} {key : String} {a : α}

/-- Taking an entry out leaves the others, in some order. -/
theorem perm_swapDelete (h : es.lookup key = some a) :
    es.Perm ((key, a) :: es.swapDelete key) := by
  induction es with
  | nil => cases h
  | cons e es ih =>
    obtain ⟨k, b⟩ := e
    unfold swapDelete
    by_cases hk : key = k
    · subst hk
      rw [List.lookup_cons_self] at h
      obtain rfl := Option.some.inj h
      rw [if_pos rfl]
      rcases List.eq_nil_or_concat es with rfl | ⟨es, e, rfl⟩
      · exact .refl _
      · simp
    · rw [List.lookup_cons, beq_eq_false_iff_ne.2 hk] at h
      rw [if_neg fun he => hk he.symm]
      exact ((ih h).cons (k, b)).trans (.swap _ _ _)

/-- Writing under a key that is there changes one entry, wherever it stands. -/
theorem perm_put (h : es.lookup key = some a) (b : α) :
    (es.put key b).Perm ((key, b) :: es.swapDelete key) := by
  obtain ⟨before, after, he, hput⟩ := put_eq h b
  have hrest : (before ++ after).Perm (es.swapDelete key) := by
    have hp := (List.Perm.of_eq he.symm).trans (perm_swapDelete h)
    exact (List.perm_middle.symm.trans hp).cons_inv
  rw [hput]
  exact List.perm_middle.trans (hrest.cons (key, b))

theorem put_perm_put (hp : es.Perm fs) (he : es.lookup key = some a) (hf : fs.lookup key = some a)
    (b : α) : (es.put key b).Perm (fs.put key b) := by
  have hrest : (es.swapDelete key).Perm (fs.swapDelete key) :=
    ((perm_swapDelete he).symm.trans (hp.trans (perm_swapDelete hf))).cons_inv
  exact (perm_put he b).trans ((hrest.cons (key, b)).trans (perm_put hf b).symm)

theorem Distinct.swapDelete (hd : es.Distinct) (h : es.lookup key = some a) :
    (es.swapDelete key).Distinct :=
  (List.nodup_cons.1 (((perm_swapDelete h).map Prod.fst).nodup_iff.1 hd)).2

/-- Under other keys the same is found as before. -/
theorem lookup_swapDelete_of_ne (hd : es.Distinct) (h : es.lookup key = some a) {k : String}
    (hk : k ≠ key) : (es.swapDelete key).lookup k = es.lookup k := by
  rw [lookup_eq_of_perm hd (perm_swapDelete h), List.lookup_cons, beq_eq_false_iff_ne.2 hk]

/-- The row holds, under the names that are still to come, what the object holds. -/
structure Row (names : List String) (row es : Entries α) : Prop where
  distinct : row.Distinct
  lookup : ∀ name ∈ names, row.lookup name = es.lookup name

theorem Row.start (hd : es.Distinct) (names : List String) : Row names es es :=
  ⟨hd, fun _ _ => rfl⟩

variable {names : List String} {name : String} {row : Entries α}

/-- A name without an entry leaves the row as it is. -/
theorem Row.skip (h : Row (name :: names) row es) : Row names row es :=
  ⟨h.distinct, fun other ho => h.lookup other (List.mem_cons_of_mem _ ho)⟩

/-- Taking the entry of the next name out shuffles the row, but nothing that is still to come is
lost. -/
theorem Row.take (h : Row (name :: names) row es) (hn : name ∉ names)
    (ha : row.lookup name = some a) : Row names (row.swapDelete name) es := by
  refine ⟨h.distinct.swapDelete ha, fun other ho => ?_⟩
  have hne : other ≠ name := fun he => hn (he ▸ ho)
  rw [lookup_swapDelete_of_ne h.distinct ha hne]
  exact h.skip.lookup other ho

/-- The object may get another value under a name that is no longer to come. -/
theorem Row.put (h : Row names row es) (hn : name ∉ names) (b : α) :
    Row names row (es.put name b) := by
  refine ⟨h.distinct, fun other ho => ?_⟩
  have hne : other ≠ name := fun he => hn (he ▸ ho)
  rw [lookup_put, if_neg hne]
  exact h.lookup other ho

end Entries

/-! ## What the fields find -/

namespace Fields

/-- The declared fields that an object has an entry for, with the value of the entry. -/
def found (fields : Fields) (es : Entries Value) : List (String × Spec × Value) :=
  fields.filterMap fun f => (es.lookup f.1).map fun v => (f.1, f.2, v)

/-- The fields that find an entry in the object, in the order in which a walk meets them. -/
structure Finds (fields : Fields) (es : Entries Value) (found : List (String × Spec × Value)) :
    Prop where
  /-- They come in the order in which they are declared. -/
  order : (found.map fun x => (x.1, x.2.1)).Sublist fields
  /-- No name comes twice. -/
  once : (found.map Prod.fst).Nodup
  /-- Just those fields come that have an entry under their own name, with its value. -/
  mem : ∀ name spec v, (name, spec, v) ∈ found ↔ (name, spec) ∈ fields ∧ (name, v) ∈ es

variable {fields : Fields} {es : Entries Value}

variable (fields es) in
theorem found_sublist : ((fields.found es).map fun x => (x.1, x.2.1)).Sublist fields := by
  induction fields with
  | nil => exact .slnil
  | cons f fields ih =>
    rw [found, List.filterMap_cons]
    rcases es.lookup f.1 with _ | v
    · exact ih.cons f
    · exact ih.cons_cons f

theorem mem_found_iff (hd : es.Distinct) {name : String} {spec : Spec} {v : Value} :
    (name, spec, v) ∈ fields.found es ↔ (name, spec) ∈ fields ∧ (name, v) ∈ es := by
  simp only [found, List.mem_filterMap, Option.map_eq_some_iff]
  constructor
  · rintro ⟨f, hf, w, hw, he⟩
    cases he
    exact ⟨hf, mem_of_lookup hw⟩
  · rintro ⟨hf, hv⟩
    exact ⟨(name, spec), hf, v, hd.lookup_eq hv, rfl⟩

theorem finds_found (hf : Entries.Distinct fields) (hd : es.Distinct) :
    fields.Finds es (fields.found es) where
  order := found_sublist fields es
  once := by
    have hnames := (found_sublist fields es).map Prod.fst
    rw [List.map_map] at hnames
    exact hnames.nodup hf
  mem _ _ _ := mem_found_iff hd

end Fields

/-! ## Walks that take the entries out -/

namespace Schema

variable (S : Schema) (focus : Focus) (path : String)

/-- The walk through the entries that the fields declare, if what a field finds is taken out of the
row of entries. -/
def takingVisits : Fields → (row : Entries Value) → Trace Visit
  | [], _ => .nil
  | (name, spec) :: fields, row =>
    match row.lookup name with
    | none => takingVisits fields row
    | some v =>
      S.visits focus (Path.field path name) spec v ++ takingVisits fields (row.swapDelete name)

/-- The walk through the value of an entry that a field found. -/
def foundVisits (x : String × Spec × Value) : Trace Visit :=
  S.visits focus (Path.field path x.1) x.2.1 x.2.2

variable {S focus path} {fields : Fields} {es row : Entries Value}

/-- As long as the row holds what is still to be found, its shuffling does not matter. -/
theorem takingVisits_eq (hf : Entries.Distinct fields) (h : Entries.Row fields.keys row es) :
    S.takingVisits focus path fields row = .each (S.foundVisits focus path) (fields.found es) := by
  induction fields generalizing row with
  | nil => rfl
  | cons f fields ih =>
    obtain ⟨name, spec⟩ := f
    obtain ⟨hn, hf⟩ := List.nodup_cons.1 hf
    have hl : row.lookup name = es.lookup name := h.lookup name List.mem_cons_self
    rw [takingVisits, Fields.found, List.filterMap_cons, ← hl]
    rcases hv : row.lookup name with _ | v
    · exact ih hf h.skip
    · exact congrArg (S.visits focus (Path.field path name) spec v ++ ·) (ih hf (h.take hn hv))

/-- Looking the entries up comes to the same. -/
theorem declaredVisits_eq_found :
    S.declaredVisits focus path fields es = .each (S.foundVisits focus path) (fields.found es) := by
  rw [declaredVisits_eq]
  induction fields with
  | nil => rfl
  | cons f fields ih =>
    rw [Fields.found, List.filterMap_cons, Trace.each, ih]
    rcases es.lookup f.1 with _ | v
    · exact Trace.nil_append _
    · rfl

theorem found_of_perm (hd : es.Distinct) (hp : es.Perm row) :
    fields.found row = fields.found es := by
  unfold Fields.found
  simp only [Entries.lookup_eq_of_perm hd hp]

end Schema

/-! ## Edits that take the entries out -/

namespace Edit

variable {σ ε : Type}

/-- Edits the entries that the fields declare, if what a field finds is taken out of a row of
entries while the edited value stays in the object. -/
def taking (f : String → Spec → Value → σ → Edit σ ε Value) :
    Fields → (row : Entries Value) → Entries Value → σ → Edit σ ε (Entries Value)
  | [], _, es, s => keep es s
  | (name, spec) :: fields, row, es, s =>
    match row.lookup name with
    | none => taking f fields row es s
    | some v =>
      ((f name spec v s).map (es.put name)).andThen (taking f fields (row.swapDelete name))

/-- The edits end in the same way, in the same state, and what they leave differs in its order
only. -/
structure Reordered (x y : Edit σ ε (Entries Value)) : Prop where
  value : x.value.Perm y.value
  state : x.state = y.state
  stop : x.stop = y.stop

variable {f : String → Spec → Value → σ → Edit σ ε Value} {fields : Fields}
  {es fs row : Entries Value}

theorem andThen_congr {α : Type} {x : Edit σ ε α} {next next' : α → σ → Edit σ ε α}
    (h : next x.value x.state = next' x.value x.state) : x.andThen next = x.andThen next' := by
  unfold andThen
  split
  · exact h
  · rfl

theorem taking_eq_declared (hf : Entries.Distinct fields) (h : Entries.Row fields.keys row es)
    (s : σ) : taking f fields row es s = declared f fields es s := by
  induction fields generalizing row es s with
  | nil => rfl
  | cons field fields ih =>
    obtain ⟨name, spec⟩ := field
    obtain ⟨hn, hf⟩ := List.nodup_cons.1 hf
    have hl : row.lookup name = es.lookup name := h.lookup name List.mem_cons_self
    rw [taking, declared, ← hl]
    rcases hv : row.lookup name with _ | v
    · exact ih hf h.skip s
    · exact andThen_congr (ih hf ((h.take hn hv).put hn _) _)

/-- **Editing goes the same way in whatever order the object has its entries.** -/
theorem declared_perm (hd : es.Distinct) (hp : es.Perm fs) (s : σ) :
    (declared f fields es s).Reordered (declared f fields fs s) := by
  induction fields generalizing es fs s with
  | nil => exact ⟨hp, rfl, rfl⟩
  | cons field fields ih =>
    obtain ⟨name, spec⟩ := field
    have hl := Entries.lookup_eq_of_perm hd hp name
    rw [declared, declared, ← hl]
    rcases hv : es.lookup name with _ | v
    · exact ih hd hp s
    · have hput := Entries.put_perm_put hp hv (hl.symm.trans hv) (f name spec v s).value
      dsimp only [andThen, map]
      rcases (f name spec v s).stop with _ | e
      · exact ih (hd.put name _) hput _
      · exact ⟨hput, rfl, rfl⟩

end Edit

/-! ## Walks in any order -/

namespace Schema

/-- What a walk by the fields does with an object does not depend on the order of its entries. -/
structure WalksInAnyOrder (S : Schema) (focus : Focus) (path : String) (fields : Fields)
    (es : Entries Value) : Prop where
  finds : fields.Finds es (fields.found es)
  /-- It goes through what the fields find, and through nothing else. -/
  visits : ∀ row, es.Perm row → S.fieldVisits focus path fields (.object row) =
    .each (S.foundVisits focus path) (fields.found es)
  /-- So it does if the entries are taken out of the row, which is shuffled by that. -/
  taking : ∀ row, es.Perm row → S.takingVisits focus path fields row =
    S.fieldVisits focus path fields (.object row)
  /-- An editor is handed the same, one after the other, whatever state it carries along, and what
  it leaves stands where the entries stood. -/
  edits : ∀ row, es.Perm row → ∀ (σ ε : Type) (editor : Editor σ ε) depth s,
    ∃ x y : Edit σ ε (Entries Value), x.Reordered y ∧
      S.editFields focus editor depth path fields (.object es) s = x.map .object ∧
      S.editFields focus editor depth path fields (.object row) s = y.map .object ∧
      y = Edit.taking (fun name => S.edit focus editor depth (Path.field path name)) fields row row
        s

/-- **Fields find their entries in whatever order an object has them.** -/
theorem walks_in_any_order (S : Schema) (focus : Focus) (path : String) {fields : Fields}
    (hf : fields.Built) (hl : fields.lone? = none) {es : Entries Value} (hd : es.Distinct) :
    S.WalksInAnyOrder focus path fields es := by
  have hvisits (row) (hp : es.Perm row) : S.fieldVisits focus path fields (.object row) =
      .each (S.foundVisits focus path) (fields.found es) := by
    rw [fieldVisits, fieldVisitsWhile_object S focus [] path hl, declaredVisits_eq_found,
      found_of_perm hd hp]
  have hrow (row) (hp : es.Perm row) : Entries.Row fields.keys row row :=
    .start ((hp.map Prod.fst).nodup_iff.1 hd) fields.keys
  refine
    { finds := Fields.finds_found hf.distinct hd
      visits := hvisits
      taking := fun row hp => ?_
      edits := fun row hp σ ε editor depth s => ?_ }
  · rw [hvisits row hp, takingVisits_eq hf.distinct (hrow row hp), found_of_perm hd hp]
  · refine ⟨_, _, Edit.declared_perm hd hp s, fields_object hl _ path _ s,
      fields_object hl _ path _ s, ?_⟩
    exact (Edit.taking_eq_declared hf.distinct (hrow row hp) s).symm

/-- A snake, with an entry that animals do not declare. -/
def kaa : Entries Value :=
  [("family", .string "snake"), ("length", .number (.int 9)), ("name", .string "kaa")]

theorem walks_in_any_order_kaa : Fields.animal.Built ∧ Fields.animal.lone? = none ∧
    kaa.Distinct ∧ empty.WalksInAnyOrder .any "" Fields.animal kaa := by
  have hf : Fields.animal.Built := Fields.built_iff_distinct.2 (by decide)
  have hd : kaa.Distinct := by decide
  exact ⟨hf, rfl, hd, walks_in_any_order empty .any "" hf rfl hd⟩

-- the family is taken first, and the name moves to its place
example : (empty.takingVisits .any "" Fields.animal kaa).seen.map Visit.path =
    ["family", "name"] := by cbv

end Schema

end ScriptSchema
