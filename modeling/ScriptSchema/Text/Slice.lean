/-!
# Slices of texts

Texts are cut at byte positions, and characters take between one and four bytes. There is no slice
at a position within a character, nor at one behind the end of the text.

* `fromByte?`, `toByte?`: the parts of a text behind a byte position and in front of it;
* `opensWith`, `closesWith`: the first and the last character;
* `isSome_fromByte?_iff`, `isSome_toByte?_iff`: where there are slices;
* **`fromByte?_append`**, **`toByte?_append`**: what they are.
-/

namespace ScriptSchema

/-- The text from a byte position on. -/
def fromByte? (s : String) (n : Nat) : Option String :=
  if h : (⟨n⟩ : String.Pos.Raw).IsValid s then some (s.sliceFrom (s.pos ⟨n⟩ h)).copy else none

/-- The text up to a byte position. -/
def toByte? (s : String) (n : Nat) : Option String :=
  if h : (⟨n⟩ : String.Pos.Raw).IsValid s then some (s.sliceTo (s.pos ⟨n⟩ h)).copy else none

/-- The text begins with the character. -/
def opensWith (s : String) (c : Char) : Bool := s.toList.head? == some c

/-- The text ends with the character. -/
def closesWith (s : String) (c : Char) : Bool := s.toList.getLast? == some c

/-! ## Byte positions -/

/-- A text can be cut where one part ends and the other begins, and nowhere else. -/
theorem isValid_iff {s : String} {n : Nat} : (⟨n⟩ : String.Pos.Raw).IsValid s ↔
    ∃ a b, s = a ++ b ∧ n = a.utf8ByteSize := by
  rw [String.Pos.Raw.isValid_iff_exists_append]
  refine exists_congr fun a => exists_congr fun b => and_congr_right fun _ => ?_
  exact String.Pos.Raw.ext_iff

theorem isSome_fromByte?_iff {s : String} {n : Nat} :
    (fromByte? s n).isSome = true ↔ ∃ a b, s = a ++ b ∧ n = a.utf8ByteSize := by
  rw [← isValid_iff, fromByte?]
  split <;> simp [*]

theorem isSome_toByte?_iff {s : String} {n : Nat} :
    (toByte? s n).isSome = true ↔ ∃ a b, s = a ++ b ∧ n = a.utf8ByteSize := by
  rw [← isValid_iff, toByte?]
  split <;> simp [*]

section Append

variable (a b : String)

theorem isValid_append : (⟨a.utf8ByteSize⟩ : String.Pos.Raw).IsValid (a ++ b) :=
  isValid_iff.2 ⟨a, b, rfl, rfl⟩

theorem splits_append :
    ((a ++ b).pos ⟨a.utf8ByteSize⟩ (isValid_append a b)).Splits a b := ⟨rfl, rfl⟩

/-- **Behind the bytes of the first part stands the second.** -/
theorem fromByte?_append : fromByte? (a ++ b) a.utf8ByteSize = some b := by
  rw [fromByte?, dif_pos (isValid_append a b), (splits_append a b).copy_sliceFrom_eq]

/-- **The bytes in front are those of the first part.** -/
theorem toByte?_append : toByte? (a ++ b) a.utf8ByteSize = some a := by
  rw [toByte?, dif_pos (isValid_append a b), (splits_append a b).copy_sliceTo_eq]

end Append

/-! ## Ends -/

variable {s : String} {c : Char}

theorem opensWith_iff : opensWith s c = true ↔ ∃ t, s = String.singleton c ++ t := by
  rw [opensWith, beq_iff_eq, List.head?_eq_some_iff]
  constructor
  · rintro ⟨cs, h⟩
    refine ⟨String.ofList cs, String.toList_inj.1 ?_⟩
    simp [h]
  · rintro ⟨t, rfl⟩
    exact ⟨t.toList, by simp⟩

theorem closesWith_iff : closesWith s c = true ↔ ∃ t, s = t ++ String.singleton c := by
  rw [closesWith, beq_iff_eq, List.getLast?_eq_some_iff]
  constructor
  · rintro ⟨cs, h⟩
    refine ⟨String.ofList cs, String.toList_inj.1 ?_⟩
    simp [h]
  · rintro ⟨t, rfl⟩
    exact ⟨t.toList, by simp⟩

end ScriptSchema
