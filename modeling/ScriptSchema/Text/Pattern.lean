import ScriptSchema.Text.CharSet

/-!
# Patterns of characters

A pattern is a choice between branches, and a branch a row of pieces, each of which reads one
character of a set, at most one, or any number of them. `Branch.Reads` says which texts a branch
reads; the matcher follows all branches at once, one character at a time.

* `Piece`, `Branch`, `Pattern` and the ways to build patterns;
* `Branch.Reads`, the meaning;
* `Pattern.accepts`, the matcher for whole texts, and `Pattern.occursIn`, for a part of a text;
* **`accepts_iff`**: the matcher accepts exactly the texts that some branch reads.
-/

namespace ScriptSchema

/-- One piece of a branch. -/
inductive Piece where
  /-- Exactly one character of the set. -/
  | one (set : CharSet)
  /-- One character of the set, or none. -/
  | atMostOne (set : CharSet)
  /-- Any number of characters of the set. -/
  | many (set : CharSet)
deriving DecidableEq

/-- Pieces that read a text one after the other. -/
abbrev Branch := List Piece

/-- A choice between branches. -/
structure Pattern where
  branches : List Branch

namespace Pattern

/-! ## Building patterns -/

/-- One character of the set. -/
def one (s : CharSet) : Pattern := ⟨[[.one s]]⟩

/-- This character. -/
def char (c : Char) : Pattern := one (.ofChars [c])

/-- One character of the set, or none. -/
def atMostOne (s : CharSet) : Pattern := ⟨[[.atMostOne s]]⟩

/-- Any number of characters of the set. -/
def many (s : CharSet) : Pattern := ⟨[[.many s]]⟩

/-- At least one character of the set. -/
def some (s : CharSet) : Pattern := ⟨[[.one s, .many s]]⟩

/-- One pattern after the other. -/
instance : Append Pattern where
  append p q := ⟨p.branches.flatMap fun a => q.branches.map fun b => a ++ b⟩

/-- One pattern or the other. -/
def or (p q : Pattern) : Pattern := ⟨p.branches ++ q.branches⟩

/-- The pattern, or nothing. -/
def maybe (p : Pattern) : Pattern := ⟨p.branches ++ [[]]⟩

end Pattern

/-! ## Meaning -/

/-- **The texts that a branch reads**, from first to last character. -/
inductive Branch.Reads : Branch → List Char → Prop where
  | done : Reads [] []
  | one {s b c cs} : s.has c = true → Reads b cs → Reads (.one s :: b) (c :: cs)
  | skip {s b cs} : Reads b cs → Reads (.atMostOne s :: b) cs
  | take {s b c cs} : s.has c = true → Reads b cs → Reads (.atMostOne s :: b) (c :: cs)
  | stop {s b cs} : Reads b cs → Reads (.many s :: b) cs
  | more {s b c cs} : s.has c = true → Reads (.many s :: b) cs → Reads (.many s :: b) (c :: cs)

/-! ## The matcher -/

namespace Branch

/-- The branch reads the empty text. -/
def skippable : Branch → Bool
  | [] => true
  | .one _ :: _ => false
  | .atMostOne _ :: b => skippable b
  | .many _ :: b => skippable b

/-- What may be left of a branch once it has read `c`. -/
def after (c : Char) : Branch → List Branch
  | [] => []
  | .one s :: b => if s.has c then [b] else []
  | .atMostOne s :: b => (if s.has c then [b] else []) ++ after c b
  | .many s :: b => (if s.has c then [.many s :: b] else []) ++ after c b

theorem reads_nil_iff (b : Branch) : Reads b [] ↔ skippable b = true := by
  induction b with
  | nil => exact ⟨fun _ => rfl, fun _ => .done⟩
  | cons p b ih =>
    cases p with
    | one s => exact ⟨(nomatch ·), fun h => by simp [skippable] at h⟩
    | atMostOne s => exact ⟨fun h => (match h with | .skip h => ih.1 h), fun h => .skip (ih.2 h)⟩
    | many s => exact ⟨fun h => (match h with | .stop h => ih.1 h), fun h => .stop (ih.2 h)⟩

theorem reads_cons_iff (c : Char) (cs : List Char) (b : Branch) :
    Reads b (c :: cs) ↔ ∃ r ∈ after c b, Reads r cs := by
  induction b with
  | nil => exact ⟨(nomatch ·), fun ⟨_, h, _⟩ => by simp [after] at h⟩
  | cons p b ih =>
    cases p with
    | one s =>
      constructor
      · rintro (⟨⟩ | ⟨hc, h⟩)
        exact ⟨b, by simp [after, hc], h⟩
      · rintro ⟨r, hr, h⟩
        by_cases hc : s.has c = true
        · simp only [after, hc, if_true, List.mem_singleton] at hr
          exact .one hc (hr ▸ h)
        · simp [after, hc] at hr
    | atMostOne s =>
      constructor
      · intro h
        cases h with
        | skip h => obtain ⟨r, hr, h⟩ := ih.1 h; exact ⟨r, by simp [after, hr], h⟩
        | take hc h => exact ⟨b, by simp [after, hc], h⟩
      · rintro ⟨r, hr, h⟩
        rcases List.mem_append.1 hr with hr | hr
        · by_cases hc : s.has c = true
          · simp only [hc, if_true, List.mem_singleton] at hr
            exact .take hc (hr ▸ h)
          · simp [hc] at hr
        · exact .skip (ih.2 ⟨r, hr, h⟩)
    | many s =>
      constructor
      · intro h
        cases h with
        | stop h => obtain ⟨r, hr, h⟩ := ih.1 h; exact ⟨r, by simp [after, hr], h⟩
        | more hc h => exact ⟨.many s :: b, by simp [after, hc], h⟩
      · rintro ⟨r, hr, h⟩
        rcases List.mem_append.1 hr with hr | hr
        · by_cases hc : s.has c = true
          · simp only [hc, if_true, List.mem_singleton] at hr
            exact .more hc (hr ▸ h)
          · simp [hc] at hr
        · exact .stop (ih.2 ⟨r, hr, h⟩)

theorem reads_many_iff (s : CharSet) (cs : List Char) :
    Reads [.many s] cs ↔ ∀ c ∈ cs, s.has c = true := by
  induction cs with
  | nil => exact ⟨fun _ => nofun, fun _ => .stop .done⟩
  | cons c cs ih =>
    rw [List.forall_mem_cons, ← ih]
    exact ⟨fun h => by cases h with | stop h => nomatch h | more hc h => exact ⟨hc, h⟩,
      fun h => .more h.1 h.2⟩

end Branch

namespace Pattern

/-- Whether some of the branches reads the text; equal branches are followed once. -/
def run : List Branch → List Char → Bool
  | bs, [] => bs.any Branch.skippable
  | bs, c :: cs => run (bs.flatMap (Branch.after c)).eraseDups cs

/-- Whether the pattern reads the whole text. -/
def accepts (p : Pattern) (cs : List Char) : Bool := run p.branches cs

/-- Whether the pattern reads some part of the text. -/
def occursIn (p : Pattern) (cs : List Char) : Bool := (many .any ++ p ++ many .any).accepts cs

theorem run_iff (bs : List Branch) (cs : List Char) :
    run bs cs = true ↔ ∃ b ∈ bs, b.Reads cs := by
  induction cs generalizing bs with
  | nil => simp only [run, List.any_eq_true, Branch.reads_nil_iff]
  | cons c cs ih =>
    simp only [run, ih, List.mem_eraseDups, List.mem_flatMap, Branch.reads_cons_iff]
    exact ⟨fun ⟨r, ⟨b, hb, hr⟩, h⟩ => ⟨b, hb, r, hr, h⟩,
      fun ⟨b, hb, r, hr, h⟩ => ⟨r, ⟨b, hb, hr⟩, h⟩⟩

/-- **The matcher accepts exactly the texts that some branch reads.** -/
theorem accepts_iff (p : Pattern) (cs : List Char) :
    p.accepts cs = true ↔ ∃ b ∈ p.branches, b.Reads cs := run_iff p.branches cs

theorem accepts_some_iff (s : CharSet) (cs : List Char) :
    (some s).accepts cs = true ↔ cs ≠ [] ∧ ∀ c ∈ cs, s.has c = true := by
  have hbranch : (some s).accepts cs = true ↔ Branch.Reads [.one s, .many s] cs := by
    rw [accepts_iff]
    simp [some]
  rw [hbranch]
  cases cs with
  | nil => exact ⟨nofun, fun h => absurd rfl h.1⟩
  | cons c cs =>
    rw [List.forall_mem_cons, ← Branch.reads_many_iff]
    exact ⟨fun h => by cases h with | one hc h => exact ⟨nofun, hc, h⟩, fun h => .one h.2.1 h.2.2⟩

end Pattern

end ScriptSchema
