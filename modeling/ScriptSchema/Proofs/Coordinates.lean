import ScriptSchema.Problem.Scalar

/-!
# Coordinates

Coordinates are a format of their own, and a part of locations. Both rules want two numbers, but only
the rule for coordinates looks at their size, and only it reads strings as numbers.

* `coordsProblem?_eq_none_iff`: what is accepted as coordinates;
* `IsLocation`, `locationProblem?_eq_none_iff`: what is accepted as a location;
* **`coords_of_location`**: the coordinates of a location.
-/

namespace ScriptSchema

namespace Scalar

variable {label name : String} {v : Value}

/-! ## Coordinates as such -/

/-- The value is or reads as a number of degrees. -/
def IsDegree (v : Value) : Prop := ∃ x, v.numeric? = some x ∧ x.within 180 = true

theorem isDegree_number {x : Number} : IsDegree (.number x) ↔ x.within 180 = true := by
  simp [IsDegree, Value.numeric?]

theorem coordsProblem?_pair {a b : Value} :
    coordsProblem? label name (.array [a, b]) = none ↔ IsDegree a ∧ IsDegree b := by
  unfold coordsProblem? IsDegree
  dsimp only
  rcases a.numeric? with _ | x
  · simp
  rcases b.numeric? with _ | y
  · simp
  by_cases hx : x.within 180 = true
  · by_cases hy : y.within 180 = true
    · simp [hx, hy]
    · simp [hx, hy]
  · simp [hx]

/-- Coordinates are two degrees. -/
theorem coordsProblem?_eq_none_iff : coordsProblem? label name v = none ↔
    ∃ a b, v = .array [a, b] ∧ IsDegree a ∧ IsDegree b := by
  constructor
  · intro h
    have hpair : ∃ a b, v = .array [a, b] := by
      unfold coordsProblem? at h
      split at h
      · exact ⟨_, _, rfl⟩
      · cases h
    obtain ⟨a, b, rfl⟩ := hpair
    exact ⟨a, b, rfl, coordsProblem?_pair.1 h⟩
  · rintro ⟨a, b, rfl, h⟩
    exact coordsProblem?_pair.2 h

/-! ## Locations -/

/-- The entries of a location: coordinates, perhaps texts for its title and address, and nothing
else. -/
structure IsLocation (fields : Entries Value) : Prop where
  texts : ∀ key ∈ ["title", "address"], ∀ w, fields.lookup key = some w → w.isString = true
  coords : ∃ x y, fields.lookup "coords" = some (.array [.number x, .number y])
  keys : ∀ key ∈ fields.keys, key ∈ ["title", "address", "coords"]

theorem locationFaults_eq_nil_iff {fields : Entries Value} :
    locationFaults fields = [] ↔ IsLocation fields := by
  unfold locationFaults
  rw [List.append_eq_nil_iff, List.append_eq_nil_iff, List.map_eq_nil_iff, List.map_eq_nil_iff,
    List.filter_eq_nil_iff, List.filter_eq_nil_iff]
  have htexts (key : String) : ¬ (fields.lookup key).any (!·.isString) = true ↔
      ∀ w, fields.lookup key = some w → w.isString = true := by
    rcases fields.lookup key with _ | w
    · simp
    · simp
  have hkeys (key : String) : ¬ (!(["title", "address", "coords"].contains key)) = true ↔
      key ∈ ["title", "address", "coords"] := by
    rw [Bool.not_eq_true', Bool.not_eq_false, List.contains_iff_mem]
  simp only [htexts, hkeys]
  constructor
  · rintro ⟨⟨ht, hc⟩, hk⟩
    refine ⟨ht, ?_, hk⟩
    split at hc
    · cases hc
    · rename_i x y hl
      exact ⟨x, y, hl⟩
    · cases hc
  · rintro ⟨ht, ⟨x, y, hl⟩, hk⟩
    refine ⟨⟨ht, ?_⟩, hk⟩
    rw [hl]

/-- Locations are objects with these entries. -/
theorem locationProblem?_eq_none_iff : locationProblem? label name v = none ↔
    ∃ fields, v = .object fields ∧ IsLocation fields := by
  cases v with
  | object fields => simp [locationProblem?, locationFaults_eq_nil_iff]
  | _ => simp [locationProblem?]

/-! ## The coordinates of a location -/

/-- **A location has coordinates of two numbers**, and the format for coordinates accepts them just
if each is at most 180 away from zero. -/
theorem coords_of_location {required : Bool} {path : String} {v : Value}
    (h : location.problem? required path v = none) :
    ∃ fields x y, v = .object fields ∧
      fields.lookup "coords" = some (.array [.number x, .number y]) ∧
      ∀ required' path', coords.problem? required' path' (.array [.number x, .number y]) = none ↔
        x.within 180 = true ∧ y.within 180 = true := by
  obtain ⟨fields, rfl, hf⟩ := locationProblem?_eq_none_iff.1 h
  obtain ⟨x, y, hl⟩ := hf.coords
  refine ⟨fields, x, y, rfl, hl, fun required' path' => ?_⟩
  rw [problem?, coordsProblem?_pair, isDegree_number, isDegree_number]

/-- A place on the map. -/
def park : Value :=
  .object [("title", .string "Park"), ("coords", .array [.number (.int 38), .number (.int (-122))])]

theorem coords_of_location_park : location.problem? true "at" park = none ∧
    ∃ fields x y, park = .object fields ∧
      fields.lookup "coords" = some (.array [.number x, .number y]) ∧
      ∀ required' path', coords.problem? required' path' (.array [.number x, .number y]) = none ↔
        x.within 180 = true ∧ y.within 180 = true := by
  have h : location.problem? true "at" park = none := by rfl
  exact ⟨h, coords_of_location h⟩

/-- A location may lie beyond all degrees. -/
theorem not_coords_of_location :
    ¬ ∀ required path v, location.problem? required path v = none →
      ∃ fields w, v = .object fields ∧ fields.lookup "coords" = some w ∧
        ∀ required' path', coords.problem? required' path' w = none := by
  intro h
  obtain ⟨fields, w, hv, hw, hc⟩ := h false "where"
    (.object [("coords", .array [.number (.int 200), .number (.int 0)])]) rfl
  cases hv
  cases hw
  cases hc false "at"

end Scalar

end ScriptSchema
