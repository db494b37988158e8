/-!
# Sets of characters

A set of characters is written as data: a list of ranges, or the complement of one. Sets written
this way can be compared, which the matcher of `ScriptSchema.Text.Pattern` needs.

* `CharSet`, `CharSet.has`;
* `digit`, `letter`, `wordChar`: the ASCII classes that names and numerals are made of;
* `blank`: the Unicode property `White_Space`.
-/

namespace ScriptSchema

/-- The characters of some ranges (both ends included) or, if negated, all the others. -/
structure CharSet where
  ranges : List (Char × Char)
  negated : Bool
deriving DecidableEq

namespace CharSet

/-- Some range of the set holds the character. -/
def listed (s : CharSet) (c : Char) : Bool :=
  s.ranges.any fun r => decide (r.1 ≤ c) && decide (c ≤ r.2)

/-- Membership. -/
def has (s : CharSet) (c : Char) : Bool :=
  if s.negated then !s.listed c else s.listed c

/-- The characters of some ranges. -/
def ofRanges (ranges : List (Char × Char)) : CharSet := ⟨ranges, false⟩

/-- The listed characters. -/
def ofChars (cs : List Char) : CharSet := ⟨cs.map fun c => (c, c), false⟩

/-- All characters but the listed ones. -/
def allBut (cs : List Char) : CharSet := ⟨cs.map fun c => (c, c), true⟩

/-- Every character. -/
def any : CharSet := allBut []

/-- All characters of both sets; meant for sets that are not negated. -/
def union (s t : CharSet) : CharSet := ⟨s.ranges ++ t.ranges, false⟩

/-! ## The ASCII classes -/

/-- `0` to `9`. -/
def digit : CharSet := ofRanges [('0', '9')]

/-- The 52 ASCII letters. -/
def letter : CharSet := ofRanges [('a', 'z'), ('A', 'Z')]

/-- ASCII letters, digits and the underscore. -/
def wordChar : CharSet := ofRanges [('a', 'z'), ('A', 'Z'), ('0', '9'), ('_', '_')]

/-! ## White space -/

/-- The 25 characters with the Unicode property `White_Space`. -/
def blank : CharSet :=
  ofRanges [('\x09', '\x0d'), (' ', ' '), ('\u0085', '\u0085'), ('\u00a0', '\u00a0'),
    ('\u1680', '\u1680'), ('\u2000', '\u200a'), ('\u2028', '\u2029'), ('\u202f', '\u202f'),
    ('\u205f', '\u205f'), ('\u3000', '\u3000')]

theorem between_iff {c d : Char} : d ≤ c ∧ c ≤ d ↔ c = d :=
  ⟨fun h => Char.le_antisymm h.2 h.1, fun h => h ▸ ⟨Char.le_refl _, Char.le_refl _⟩⟩

theorem has_ofChars (cs : List Char) (c : Char) : (ofChars cs).has c = cs.contains c := by
  simp only [has, ofChars, listed, Bool.false_eq_true, if_false]
  induction cs with
  | nil => rfl
  | cons d cs ih =>
    rw [List.map_cons, List.any_cons, List.contains_cons, ih]
    congr 1
    rw [Bool.eq_iff_iff]
    simp only [Bool.and_eq_true, decide_eq_true_eq, beq_iff_eq, between_iff]

theorem has_allBut (cs : List Char) (c : Char) : (allBut cs).has c = !cs.contains c := by
  rw [← has_ofChars]; rfl

@[simp] theorem has_any (c : Char) : any.has c = true := has_allBut [] c

theorem has_union {s t : CharSet} (hs : s.negated = false) (ht : t.negated = false) (c : Char) :
    (s.union t).has c = (s.has c || t.has c) := by
  simp [has, union, listed, hs, ht]

theorem has_letter (c : Char) : letter.has c = c.isAlpha := by
  have hletters : letter.has c = true ↔ ('a' ≤ c ∧ c ≤ 'z') ∨ ('A' ≤ c ∧ c ≤ 'Z') := by
    simp [has, letter, ofRanges, listed]
  have halpha : c.isAlpha = true ↔ ('A' ≤ c ∧ c ≤ 'Z') ∨ ('a' ≤ c ∧ c ≤ 'z') := by
    have h : c.isAlpha = (decide ('A' ≤ c ∧ c ≤ 'Z') || (decide ('a' ≤ c) && decide (c ≤ 'z'))) :=
      rfl
    simp [h]
  rw [Bool.eq_iff_iff, hletters, halpha]
  exact or_comm

theorem has_wordChar (c : Char) : wordChar.has c = (c.isAlphanum || c == '_') := by
  have hwords : wordChar.has c = true ↔ ('a' ≤ c ∧ c ≤ 'z') ∨ ('A' ≤ c ∧ c ≤ 'Z') ∨
      ('0' ≤ c ∧ c ≤ '9') ∨ ('_' ≤ c ∧ c ≤ '_') := by
    simp [has, wordChar, ofRanges, listed]
  have halnum : c.isAlphanum = true ↔ (('A' ≤ c ∧ c ≤ 'Z') ∨ ('a' ≤ c ∧ c ≤ 'z')) ∨
      ('0' ≤ c ∧ c ≤ '9') := by
    have h : c.isAlphanum = ((decide ('A' ≤ c ∧ c ≤ 'Z') || (decide ('a' ≤ c) && decide (c ≤ 'z')))
        || (decide ('0' ≤ c) && decide (c ≤ '9'))) := rfl
    simp [h]
  rw [Bool.eq_iff_iff, hwords, between_iff, Bool.or_eq_true, beq_iff_eq, halnum, ← or_assoc,
    ← or_assoc]
  exact or_congr_left (or_congr_left or_comm)

end CharSet

/-- A text without the blanks at its two ends. -/
def trimBlanks (cs : List Char) : List Char :=
  ((cs.dropWhile CharSet.blank.has).reverse.dropWhile CharSet.blank.has).reverse

end ScriptSchema
