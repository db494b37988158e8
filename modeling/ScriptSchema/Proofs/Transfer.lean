import ScriptSchema.Proofs.Faultless

/-!
# Validation of a value in another script

A value is part of a script, and its terminal parts may refer to others of the script. Where no hook
looks at the script, that is all of it that counts: what holds between the outcomes for terminal
values in two scripts holds between those for any value.

* `Schema.Hookless`: no class has a hook;
* `Search.Compatible`: relations of searches that can be put together part by part;
* **`problems_transfer`**, `classProblems_transfer`: from terminal values to all.
-/

namespace ScriptSchema

/-! ## Relations of searches -/

namespace Search

variable {α β : Type}

/-- What holds between the parts of two searches holds between the searches. -/
structure Compatible (R : Search α → Search α → Prop) : Prop where
  refl : ∀ x, R x x
  both : ∀ {x x' y y'}, R x x' → R y y' → R (both x y) (both x' y')

theorem Compatible.gather {R : Search α → Search α → Prop} (hR : Compatible R)
    {f g : β → Search α} {bs : List β} (h : ∀ b ∈ bs, R (f b) (g b)) :
    R (gather (bs.map f)) (gather (bs.map g)) := by
  induction bs with
  | nil => exact hR.refl _
  | cons b bs ih =>
    rw [List.forall_mem_cons] at h
    exact hR.both h.1 (ih h.2)

/-- Nothing is found in the second if nothing is found in the first. -/
theorem compatible_nil : Compatible (α := α) fun x y => x = .ok [] → y = .ok [] where
  refl _ h := h
  both hx hy h :=
    have h := both_eq_nil_iff.1 h
    both_eq_nil_iff.2 ⟨hx h.1, hy h.2⟩

/-- The same is found, or both do not come to their end. -/
theorem compatible_toOption :
    Compatible (α := α) fun x y => Except.toOption x = Except.toOption y where
  refl _ := rfl
  both {x x' y y'} hx hy := by
    rcases x with _ | as <;> rcases x' with _ | as'
    · rfl
    · nomatch hx
    · nomatch hx
    obtain rfl : as = as' := Option.some.inj hx
    rcases y with _ | bs <;> rcases y' with _ | bs'
    · rfl
    · nomatch hy
    · nomatch hy
    obtain rfl : bs = bs' := Option.some.inj hy
    rfl

end Search

/-! ## From terminal values to all -/

namespace Schema

/-- No class has a hook. -/
def Hookless (S : Schema) : Prop := ∀ c, S.Describes c → c.hook = none

variable {S : Schema} {d e : Script} {R : Search Problem → Search Problem → Prop}

theorem hookless_of_entries (hr : ∀ f ∈ S.resources.entries, f.2.hook = none)
    (hc : ∀ f ∈ S.components.entries, ∀ v ∈ f.2.variants, v.2.hook = none) : S.Hookless := by
  intro c h
  cases h with
  | resource h => exact hr _ h
  | variant h hv =>
    obtain ⟨own, ho, rfl⟩ := Option.map_eq_some_iff.1 hv
    exact hc _ (mem_of_lookup h) _ (mem_of_lookup ho)

theorem hookless_scenes : scenes.Hookless := by
  refine hookless_of_entries (List.forall_mem_singleton.2 rfl) (List.forall_mem_singleton.2 ?_)
  exact List.forall_mem_cons.2 ⟨rfl, List.forall_mem_singleton.2 rfl⟩

/-- **What holds between the problems of terminal values in two scripts holds between those of any
value.** -/
theorem problems_transfer (hR : Search.Compatible R) (hS : S.Hookless)
    (ht : ∀ name t required v,
      R (S.terminalProblems d name t required v) (S.terminalProblems e name t required v)) :
    S.Descent
      (fun present spec v => ∀ name,
        R (S.problemsWhile d present name spec v) (S.problemsWhile e present name spec v))
      (fun present fields v => ∀ lead,
        R (S.fieldProblemsWhile d present lead fields v)
          (S.fieldProblemsWhile e present lead fields v)) where
  terminal present t info v name := by
    rw [problemsWhile_terminal, problemsWhile_terminal]
    exact ht name t info.required v
  list present items info v ih name := by
    rw [problemsWhile_list_eq, problemsWhile_list_eq]
    rcases hv : v.array? with _ | vs
    · exact hR.refl _
    · exact hR.gather fun m hm => ih vs hv m.1 (List.fst_mem_of_mem_zipIdx hm) _
  dictionary present keys values info v ih name := by
    rw [problemsWhile_dictionary_eq, problemsWhile_dictionary_eq]
    rcases hv : v.object? with _ | es
    · exact hR.refl _
    · exact hR.gather fun m hm => hR.both ((ih es hv m hm).1 _) ((ih es hv m hm).2 _)
  object present fields info v ih name := by
    rw [problemsWhile_object, problemsWhile_object]
    exact ih _
  component present kind info v ih name := by
    rw [problemsWhile_component_eq, problemsWhile_component_eq]
    rcases hc : S.components.find? kind with _ | c
    · exact hR.refl _
    dsimp only
    rcases c.choose v with _ | _ | variant
    · exact hR.refl _
    · exact hR.refl _
    dsimp only
    rcases hx : c.variant? variant with _ | chosen
    · exact hR.refl _
    dsimp only
    split
    · exact hR.refl _
    · rename_i hk
      -- the fields are the same in both scripts, and there is no hook to tell them apart
      rw [hS chosen (.variant hc hx)]
      exact hR.both (ih c hc hk chosen.fields _) (hR.refl _)
  fields present fields v lone parts lead := by
    rw [fieldProblemsWhile_eq, fieldProblemsWhile_eq]
    rcases hl : fields.lone? with _ | spec
    · dsimp only
      rcases hv : v.object? with _ | es
      · exact hR.refl _
      · refine hR.both (hR.gather fun f hf => ?_) (hR.refl _)
        rcases hw : es.lookup f.1 with _ | w
        · exact hR.refl _
        · exact parts es hv f hf w hw _
    · exact lone spec hl _

/-- The same of the problems by a class of the schema. -/
theorem classProblems_transfer (hR : Search.Compatible R) (hS : S.Hookless)
    (ht : ∀ name t required v,
      R (S.terminalProblems d name t required v) (S.terminalProblems e name t required v))
    (lead : String) {c : Class} (hc : S.Describes c) (v : Value) :
    R (S.classProblems d lead c v) (S.classProblems e lead c v) := by
  rw [classProblems_eq, classProblems_eq, hS c hc]
  exact hR.both ((problems_transfer hR hS ht).fieldsOf [] c.fields v lead) (hR.refl _)

end Schema

end ScriptSchema
