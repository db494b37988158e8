import ScriptSchema.Text.Pattern

/-!
# What patterns read

What a pattern reads follows from what its parts read: one pattern after the other reads a text that
can be cut in two, and a pattern occurs in a text if it reads some part of it. What may be left out
in front of a pattern and behind it does not matter to where the pattern occurs.

* `Branch.reads_append_iff`: a branch that goes on with another one;
* `Pattern.Reads`, `reads_append_iff`, `reads_one_iff`, …: patterns by their parts;
* `occursIn_iff`: patterns that occur in a text;
* **`occursIn_between`**: patterns between others that may read nothing.
-/

namespace ScriptSchema

/-! ## Branches -/

namespace Branch

variable {a b : Branch} {u v cs : List Char}

theorem Reads.append (ha : Reads a u) (hb : Reads b v) : Reads (a ++ b) (u ++ v) := by
  induction ha with
  | done => exact hb
  | one hc _ ih => exact .one hc ih
  | skip _ ih => exact .skip ih
  | take hc _ ih => exact .take hc ih
  | stop _ ih => exact .stop ih
  | more hc _ ih => exact .more hc ih

/-- Where the first branch ends, the text can be cut. -/
theorem Reads.exists_cut (h : Reads (a ++ b) cs) :
    ∃ u v, cs = u ++ v ∧ Reads a u ∧ Reads b v := by
  induction a generalizing cs with
  | nil => exact ⟨[], cs, rfl, .done, h⟩
  | cons piece a ih =>
    cases piece with
    | one s =>
      cases h with
      | one hc h =>
        obtain ⟨u, v, rfl, hu, hv⟩ := ih h
        exact ⟨_ :: u, v, rfl, .one hc hu, hv⟩
    | atMostOne s =>
      cases h with
      | skip h =>
        obtain ⟨u, v, rfl, hu, hv⟩ := ih h
        exact ⟨u, v, rfl, .skip hu, hv⟩
      | take hc h =>
        obtain ⟨u, v, rfl, hu, hv⟩ := ih h
        exact ⟨_ :: u, v, rfl, .take hc hu, hv⟩
    | many s =>
      -- the piece stays while it reads, so that only the text gets shorter
      generalize hx : Piece.many s :: a ++ b = x at h
      induction h with
      | stop h =>
        cases hx
        obtain ⟨u, v, rfl, hu, hv⟩ := ih h
        exact ⟨u, v, rfl, .stop hu, hv⟩
      | more hc _ ihmore =>
        cases hx
        obtain ⟨u, v, rfl, hu, hv⟩ := ihmore rfl
        exact ⟨_ :: u, v, rfl, .more hc hu, hv⟩
      | _ => cases hx

theorem reads_append_iff : Reads (a ++ b) cs ↔ ∃ u v, cs = u ++ v ∧ Reads a u ∧ Reads b v := by
  refine ⟨Reads.exists_cut, ?_⟩
  rintro ⟨u, v, rfl, hu, hv⟩
  exact hu.append hv

theorem reads_nil_branch_iff : Reads [] cs ↔ cs = [] := by
  refine ⟨fun h => by cases h; rfl, ?_⟩
  rintro rfl
  exact .done

end Branch

/-! ## Patterns -/

namespace Pattern

/-- Some branch of the pattern reads the text. -/
def Reads (p : Pattern) (cs : List Char) : Prop := ∃ b ∈ p.branches, b.Reads cs

variable {p q r : Pattern} {s : CharSet} {cs : List Char}

theorem reads_append_iff : (p ++ q).Reads cs ↔ ∃ u v, cs = u ++ v ∧ p.Reads u ∧ q.Reads v := by
  have hbranches : (p ++ q).branches =
      p.branches.flatMap fun a => q.branches.map fun b => a ++ b := rfl
  simp only [Reads, hbranches, List.mem_flatMap, List.mem_map]
  constructor
  · rintro ⟨_, ⟨a, ha, b, hb, rfl⟩, h⟩
    obtain ⟨u, v, rfl, hu, hv⟩ := Branch.reads_append_iff.1 h
    exact ⟨u, v, rfl, ⟨a, ha, hu⟩, b, hb, hv⟩
  · rintro ⟨u, v, rfl, ⟨a, ha, hu⟩, b, hb, hv⟩
    exact ⟨a ++ b, ⟨a, ha, b, hb, rfl⟩, hu.append hv⟩

theorem reads_one_iff : (one s).Reads cs ↔ ∃ c, s.has c = true ∧ cs = [c] := by
  simp only [Reads, one, List.mem_singleton, exists_eq_left]
  constructor
  · intro h
    cases h with
    | @one _ _ c cs hc h => exact ⟨c, hc, by rw [Branch.reads_nil_branch_iff.1 h]⟩
  · rintro ⟨c, hc, rfl⟩
    exact .one hc .done

theorem reads_char_iff {c : Char} : (char c).Reads cs ↔ cs = [c] := by
  simp only [char, reads_one_iff, CharSet.has_ofChars, List.contains_cons, List.contains_nil,
    Bool.or_false, beq_iff_eq, exists_eq_left]

theorem reads_many_iff : (many s).Reads cs ↔ ∀ c ∈ cs, s.has c = true := by
  simp only [Reads, many, List.mem_singleton, exists_eq_left, Branch.reads_many_iff]

theorem reads_some_iff : (some s).Reads cs ↔ cs ≠ [] ∧ ∀ c ∈ cs, s.has c = true :=
  (accepts_iff (some s) cs).symm.trans (accepts_some_iff s cs)

theorem reads_nil_maybe : p.maybe.Reads [] :=
  ⟨[], List.mem_append_right _ List.mem_cons_self, .done⟩

theorem reads_nil_atMostOne : (atMostOne s).Reads [] := ⟨_, List.mem_cons_self, .skip .done⟩

/-! ## Parts of a text -/

/-- A pattern occurs in a text if it reads a part of the text. -/
theorem occursIn_iff : p.occursIn cs = true ↔ ∃ mid, mid <:+: cs ∧ p.Reads mid := by
  have hany (us : List Char) : (many .any).Reads us :=
    reads_many_iff.2 fun c _ => CharSet.has_any c
  rw [occursIn, accepts_iff]
  change (many .any ++ p ++ many .any).Reads cs ↔ _
  constructor
  · intro h
    obtain ⟨_, back, rfl, h, -⟩ := reads_append_iff.1 h
    obtain ⟨front, mid, rfl, -, hmid⟩ := reads_append_iff.1 h
    exact ⟨mid, ⟨front, back, rfl⟩, hmid⟩
  · rintro ⟨mid, ⟨front, back, rfl⟩, hmid⟩
    refine reads_append_iff.2 ⟨front ++ mid, back, rfl, ?_, hany back⟩
    exact reads_append_iff.2 ⟨front, mid, rfl, hany front, hmid⟩

/-- **What may be left out around a pattern does not matter to where it occurs.** -/
theorem occursIn_between (hp : p.Reads []) (hr : r.Reads []) :
    (p ++ q ++ r).occursIn cs = q.occursIn cs := by
  rw [Bool.eq_iff_iff, occursIn_iff, occursIn_iff]
  constructor
  · rintro ⟨whole, hwhole, h⟩
    obtain ⟨_, back, rfl, h, -⟩ := reads_append_iff.1 h
    obtain ⟨front, mid, rfl, -, hmid⟩ := reads_append_iff.1 h
    have hpart : mid <:+: front ++ mid ++ back := ⟨front, back, rfl⟩
    exact ⟨mid, hpart.trans hwhole, hmid⟩
  · rintro ⟨mid, hpart, hmid⟩
    refine ⟨mid, hpart, reads_append_iff.2 ⟨mid, [], (List.append_nil mid).symm, ?_, hr⟩⟩
    exact reads_append_iff.2 ⟨[], mid, rfl, hp, hmid⟩

end Pattern

end ScriptSchema
