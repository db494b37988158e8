import ScriptSchema.Proofs.Completion
import ScriptSchema.Proofs.Located
import ScriptSchema.Proofs.Selection

/-!
# Paths of walks and names of problems

A walk tells where a part lies by its path, and validation by the name in its problems. The path
grows by a dot and the field's name. The name grows by the field's name only, as the dot is put
behind it on the way down, and is cut off again where a lone `self` describes the value. Both come
to the same text, and both come to the same parts, as long as every instance chooses a variant that
is declared. What validation finds in a part is therefore found when the whole is validated, in one
block and under the path of the walk.

* `loneName_dot`, `Path.field_of_ne`: the two ways to name a part;
* `Search.infix_of_mem_gather`: what a part finds is a block of what all parts find;
* `Visit.Chosen`: an instance chooses a variant that is declared;
* `Visit.InBlock`: what validation finds in a visited part is a block of what it finds in the whole;
* `Trace.Entails`: what a walk sees has one property, if it has another;
* `inBlock_descent`, `class_inBlocks`: along the descent, and from a resource down;
* **`visits_in_blocks`**: the visited parts of a resource.
-/

namespace ScriptSchema

/-! ## The two ways to name a part -/

theorem append_ne_empty {s : String} (h : s ≠ "") (t : String) : s ++ t ≠ "" :=
  fun ht => h (String.append_eq_empty_iff.1 ht).1

/-- The dot behind a name is cut off again. -/
theorem Schema.loneName_dot {name : String} (h : name ≠ "") : loneName (name ++ ".") = name := by
  have hr : (name ++ ".").toList.reverse = '.' :: name.toList.reverse := by
    rw [String.toList_append, List.reverse_append]
    rfl
  have he : name.toList.reverse.isEmpty = false := by
    rw [List.isEmpty_reverse, List.isEmpty_eq_false_iff]
    exact fun hn => h (String.toList_eq_nil_iff.1 hn)
  rw [loneName, hr]
  change (if name.toList.reverse.isEmpty then _ else String.ofList name.toList.reverse.reverse) = _
  rw [he, List.reverse_reverse, String.ofList_toList]
  rfl

namespace Path

theorem field_of_ne {path : String} (h : path ≠ "") (name : String) :
    field path name = path ++ "." ++ name := if_neg h

theorem item_ne_empty {path : String} (h : path ≠ "") (index : Nat) : item path index ≠ "" :=
  append_ne_empty (append_ne_empty (append_ne_empty h _) _) _

theorem entry_ne_empty {path : String} (h : path ≠ "") (key : String) : entry path key ≠ "" :=
  append_ne_empty (append_ne_empty (append_ne_empty h _) _) _

end Path

/-! ## Blocks of what is found -/

/-- What a part finds is a block of what all parts find. -/
theorem Search.infix_of_mem_gather {α : Type} {xs : List (Search α)} {found : List α}
    (h : gather xs = .ok found) {x : Search α} (hx : x ∈ xs) :
    ∃ own, x = .ok own ∧ own <:+: found := by
  induction xs generalizing found with
  | nil => exact absurd hx List.not_mem_nil
  | cons y ys ih =>
    obtain ⟨here, rest, hy, hys, rfl⟩ := both_eq_ok_iff.1 h
    rcases List.mem_cons.1 hx with rfl | hx
    · exact ⟨here, hy, (List.prefix_append here rest).isInfix⟩
    · obtain ⟨own, ho, hi⟩ := ih hys hx
      exact ⟨own, ho, hi.trans (List.suffix_append here rest).isInfix⟩

/-- If the visited part is an instance and an object, it chooses a variant that is declared. -/
def Visit.Chosen (S : Schema) (visit : Visit) : Prop :=
  ∀ kind info, visit.spec = .component kind info → visit.value.isObject = true →
    ∃ c variant chosen, S.components.find? kind = some c ∧
      c.choose visit.value = .variant variant ∧ c.variant? variant = some chosen

theorem Visit.chosen_terminal {S : Schema} {path : String} {t : Terminal} {info : Info}
    {onKey : Bool} {v : Value} : Chosen S ⟨path, .terminal t info, onKey, v⟩ := by
  intro kind info hs
  cases hs

/-- If a walk to terminal values visits the part, then what validation finds in the part is a block
of what was found. -/
def Visit.InBlock (S : Schema) (d : Script) (found : List Problem) (visit : Visit) : Prop :=
  Focus.terminal.selects visit = true →
    ∃ own, S.problems d visit.path visit.spec visit.value = .ok own ∧ own <:+: found

theorem Visit.InBlock.mono {S : Schema} {d : Script} {found all : List Problem}
    (h : found <:+: all) {visit : Visit} (hv : visit.InBlock S d found) : visit.InBlock S d all :=
  fun hs =>
    let ⟨own, ho, hi⟩ := hv hs
    ⟨own, ho, hi.trans h⟩

namespace Trace

variable {α β : Type} {q p : α → Prop}

/-- All that a walk sees has the property `p`, if all of it has the property `q`. -/
def Entails (q p : α → Prop) (t : Trace α) : Prop := Sees q t → Sees p t

theorem Entails.mono {p' : α → Prop} {t : Trace α} (h : Entails q p t) (hp : ∀ a, p a → p' a) :
    Entails q p' t := fun hq a ha => hp a (h hq a ha)

theorem entails_nil : Entails q p nil := fun _ => sees_nil

theorem entails_ofList {as : List α} (h : ∀ a ∈ as, p a) : Entails q p (ofList as) :=
  fun _ => sees_ofList.2 h

/-- After an error in the first walk there is no second one. -/
theorem Entails.append {t u : Trace α} (ht : Entails q p t) (hu : Entails q p u) :
    Entails q p (t ++ u) := by
  intro hq
  rcases he : t.error with _ | e
  · rw [append_of_none he] at hq ⊢
    obtain ⟨hqt, hqu⟩ := List.forall_mem_append.1 hq
    exact List.forall_mem_append.2 ⟨ht hqt, hu hqu⟩
  · rw [append_of_some he] at hq ⊢
    exact ht hq

theorem Entails.each {f : β → Trace α} {bs : List β} (h : ∀ b ∈ bs, Entails q p (f b)) :
    Entails q p (each f bs) := by
  induction bs with
  | nil => exact entails_nil
  | cons b bs ih =>
    rw [List.forall_mem_cons] at h
    exact h.1.append (ih h.2)

end Trace

namespace Schema

variable (S : Schema) (d : Script)

/-! ## Level by level -/

/-- The parts that are seen on a walk along a path lie in blocks of what was found, if every
instance that is seen chooses a variant. -/
def InBlocks (found : List Problem) (t : Trace Visit) : Prop :=
  t.Entails (Visit.Chosen S) (Visit.InBlock S d found)

variable {S d} {present : List String} {path name lead : String} {found : List Problem} {v : Value}

theorem InBlocks.mono {all : List Problem} {t : Trace Visit} (h : S.InBlocks d found t)
    (hi : found <:+: all) : S.InBlocks d all t :=
  Trace.Entails.mono h fun _ hv => hv.mono hi

/-- The keys that are visited are validated as strings. -/
theorem keyVisits_inBlocks {keys : Spec} {es : Entries Value}
    (h : ∀ e ∈ es, ∃ own, S.problems d (Path.entry path e.1) keys (.string e.1) = .ok own ∧
      own <:+: found) : S.InBlocks d found (keyVisits .any path keys es) := by
  unfold keyVisits
  split
  · refine Trace.entails_ofList fun visit hv => ?_
    obtain ⟨key, hk, rfl⟩ := List.mem_map.1 hv
    obtain ⟨e, he, rfl⟩ := List.mem_map.1 hk
    exact fun _ => h e he
  · exact Trace.entails_nil

/-- Fields that take a value apart: it is enough that each is named as its path says. -/
theorem fieldVisits_inBlocks {fields : Fields} (hl : fields.lone? = none)
    (hname : ∀ f ∈ fields, lead ++ f.1 = Path.field path f.1)
    (hfound : S.fieldProblemsWhile d present lead fields v = .ok found)
    (parts : ∀ es, v.object? = some es → ∀ f ∈ fields, ∀ w, es.lookup f.1 = some w → ∀ own,
      S.problems d (Path.field path f.1) f.2 w = .ok own →
        S.InBlocks d own (S.visits .any (Path.field path f.1) f.2 w)) :
    S.InBlocks d found (S.fieldVisitsWhile .any present path fields v) := by
  rw [fieldProblemsWhile_eq, hl] at hfound
  rw [fieldVisitsWhile_eq, hl]
  rcases hv : v.object? with _ | es
  · exact Trace.entails_nil
  rw [hv] at hfound
  obtain ⟨declared, unexpected, hd, -, rfl⟩ := Search.both_eq_ok_iff.1 hfound
  refine Trace.Entails.each fun f hf => ?_
  rcases hw : es.lookup f.1 with _ | w
  · exact Trace.entails_nil
  obtain ⟨own, ho, hi⟩ := Search.infix_of_mem_gather hd (List.mem_map_of_mem hf)
  rw [hname f hf, hw] at ho
  exact (parts es hv f hf w hw own ho).mono
    (hi.trans (List.prefix_append declared unexpected).isInfix)

variable (S d) in
/-- At every level of the descent, a walk along the name of a value sees blocks. -/
theorem inBlock_descent :
    S.Descent
      (fun present spec v => ∀ name found, name ≠ "" →
        S.problemsWhile d present name spec v = .ok found →
          S.InBlocks d found (S.visitsWhile .any present name spec v))
      (fun present fields v => ∀ name found, name ≠ "" →
        S.fieldProblemsWhile d present (name ++ ".") fields v = .ok found →
          S.InBlocks d found (S.fieldVisitsWhile .any present name fields v)) where
  terminal present t info v name found _ h := by
    have hany : Focus.any.takes t = true := rfl
    rw [visitsWhile_terminal, if_pos hany]
    refine Trace.entails_ofList (List.forall_mem_singleton.2 fun _ => ⟨found, ?_, List.infix_rfl⟩)
    rw [problemsWhile_terminal] at h
    rwa [problems, problemsWhile_terminal]
  list present items info v ih name found hn h := by
    rw [problemsWhile_list_eq] at h
    rw [visitsWhile_list_eq]
    rcases hv : v.array? with _ | vs
    · exact Trace.entails_nil
    rw [hv] at h
    refine Trace.Entails.each fun m hm => ?_
    obtain ⟨own, ho, hi⟩ := Search.infix_of_mem_gather h (List.mem_map_of_mem hm)
    have hw : m.1 ∈ vs := List.fst_mem_of_mem_zipIdx hm
    exact (ih vs hv m.1 hw _ own (Path.item_ne_empty hn m.2) ho).mono hi
  dictionary present keys values info v ih name found hn h := by
    rw [problemsWhile_dictionary_eq] at h
    rw [visitsWhile_dictionary_eq]
    rcases hv : v.object? with _ | es
    · exact Trace.entails_nil
    rw [hv] at h
    have hparts (e : String × Value) (he : e ∈ es) : ∃ ofKey ofValue,
        S.problems d (Path.entry name e.1) keys (.string e.1) = .ok ofKey ∧
          S.problems d (Path.entry name e.1) values e.2 = .ok ofValue ∧
          ofKey ++ ofValue <:+: found := by
      obtain ⟨own, ho, hi⟩ := Search.infix_of_mem_gather h (List.mem_map_of_mem he)
      obtain ⟨ofKey, ofValue, hk, hx, rfl⟩ := Search.both_eq_ok_iff.1 ho
      exact ⟨ofKey, ofValue, hk, hx, hi⟩
    refine Trace.Entails.append (keyVisits_inBlocks fun e he => ?_) (.each fun e he => ?_)
    · obtain ⟨ofKey, ofValue, hk, -, hi⟩ := hparts e he
      exact ⟨ofKey, hk, (List.prefix_append ofKey ofValue).isInfix.trans hi⟩
    · obtain ⟨ofKey, ofValue, -, hx, hi⟩ := hparts e he
      exact ((ih es hv e he).2 _ ofValue (Path.entry_ne_empty hn e.1) hx).mono
        ((List.suffix_append ofKey ofValue).isInfix.trans hi)
  object present fields info v ih name found hn h := by
    rw [problemsWhile_object] at h
    rw [visitsWhile_object]
    exact ih name found hn h
  component present kind info v ih name found hn h := by
    have hany : Focus.any.takesComponent kind = true := rfl
    rw [visitsWhile_component_eq, if_pos hany]
    intro hseen
    rw [Trace.append_of_none rfl] at hseen ⊢
    obtain ⟨hhere, hbelow⟩ := List.forall_mem_cons.1 hseen
    -- the instance itself is no terminal value
    refine List.forall_mem_cons.2 ⟨fun hs => absurd hs Bool.false_ne_true, ?_⟩
    rcases hc : S.components.find? kind with _ | c
    · exact Trace.sees_nil
    simp only [hc] at hbelow
    dsimp only
    rcases hv : v.isObject with _ | _
    · exact Trace.sees_nil
    -- the walk goes on by the class that validation compares the value with
    obtain ⟨c', variant, chosen, hc', hchoose, hx⟩ := hhere kind info rfl hv
    obtain rfl : c = c' := Option.some.inj (hc.symm.trans hc')
    rw [problemsWhile_component_eq] at h
    simp only [hc, hchoose, hx] at h
    by_cases hk : kind ∈ present
    · rw [if_pos hk] at h
      cases h
    · rw [if_neg hk] at h
      obtain ⟨declared, hooked, hd, -, rfl⟩ := Search.both_eq_ok_iff.1 h
      simp only [hv, hk, if_true, if_false, classAt_eq hchoose hx] at hbelow ⊢
      exact (ih c hc hk chosen.fields name declared hn hd).mono
        (List.prefix_append declared hooked).isInfix hbelow
  fields present fields v lone parts name found hn h := by
    rcases hl : fields.lone? with _ | spec
    · refine fieldVisits_inBlocks hl (fun f _ => (Path.field_of_ne hn f.1).symm) h
        fun es hv f hf w hw own ho => ?_
      have hne : Path.field name f.1 ≠ "" := by
        rw [Path.field_of_ne hn]
        exact append_ne_empty (append_ne_empty hn _) _
      exact parts es hv f hf w hw _ own hne ho
    · rw [fieldProblemsWhile_lone S d present hl, loneName_dot hn] at h
      rw [fieldVisitsWhile_lone S .any present name hl]
      exact lone spec hl name found hn h

/-! ## Resources -/

/-- The parts of a resource lie in blocks. The name of a field is its path already. -/
theorem class_inBlocks {c : Class} (hl : c.fields.lone? = none) (hn : ∀ f ∈ c.fields, f.1 ≠ "")
    (h : S.classProblems d "" c v = .ok found) :
    S.InBlocks d found (S.fieldVisits .any "" c.fields v) := by
  rw [classProblems_eq] at h
  obtain ⟨declared, hooked, hd, -, rfl⟩ := Search.both_eq_ok_iff.1 h
  have hroot : S.InBlocks d declared (S.fieldVisits .any "" c.fields v) :=
    fieldVisits_inBlocks hl (fun f _ => String.empty_append) hd fun es ho f hf w hw own hown =>
      (inBlock_descent S d).spec [] f.2 w f.1 own (hn f hf) hown
  exact hroot.mono (List.prefix_append declared hooked).isInfix

/-- **The problems of every part that a walk visits are a block of those of the resource**, under
the path of the walk. -/
theorem visits_in_blocks (h : S.check = .ok ()) {type : String} {c : Class}
    (hc : S.resources.find? type = some c) (hl : c.fields.lone? = none)
    (hn : ∀ f ∈ c.fields, f.1 ≠ "") (d : Script) {v : Value}
    (hv : ∀ visit ∈ (S.resourceVisits .any type v).seen, visit.Chosen S) :
    (S.Returns d ⟨.validate, .object c.fields .plain, v⟩ ↔
        ∃ found, S.classProblems d "" c v = .ok found) ∧
      ∀ found, S.classProblems d "" c v = .ok found →
        ∀ visit ∈ (S.resourceVisits .terminal type v).seen, ∃ own,
          S.problems d visit.path visit.spec visit.value = .ok own ∧ own <:+: found := by
  have hd : S.Describes c := .resource (mem_of_lookup hc)
  refine ⟨(completes_classProblems_iff (S.sound_of_check h) hd).symm, ?_⟩
  intro found hfound visit hvisit
  rw [resourceVisits, hc] at hv hvisit
  dsimp only at hv hvisit
  rw [fieldVisits_eq_filter] at hvisit
  obtain ⟨hmem, hsel⟩ := List.mem_filter.1 hvisit
  exact class_inBlocks hl hn hfound hv visit hmem hsel

/-- The class of scenes. -/
def sceneClass : Class :=
  ⟨[("name", .terminal (.scalar .name) ⟨true, none⟩),
    ("next", .terminal (.reference "scenes" [] false) .plain),
    ("cues", .list (.component "cue" .plain) .plain)], none⟩

/-- A line whose id is a text, and which comes after a cue that is not there. -/
def muddledLine : Value :=
  .object [("type", .string "line"), ("id", .string "one"), ("after", .number (.int 7))]

/-- A scene with this line. -/
def muddled : Value :=
  .object [("name", .string "day"), ("cues", .array [muddledLine])]

theorem chosen_muddled :
    ∀ visit ∈ (scenes.resourceVisits .any "scene" muddled).seen, visit.Chosen scenes := by
  have hseen : (scenes.resourceVisits .any "scene" muddled).seen =
      [⟨"name", .terminal (.scalar .name) ⟨true, none⟩, false, .string "day"⟩,
        ⟨"cues[0]", .component "cue" .plain, false, muddledLine⟩,
        ⟨"cues[0].type", .terminal (.enum ["line", "block"]) ⟨true, some "Type of cue."⟩, false,
          .string "line"⟩,
        ⟨"cues[0].id", .terminal (.scalar .integer) .plain, false, .string "one"⟩,
        ⟨"cues[0].after", .terminal (.instanceId "cue") .plain, false, .number (.int 7)⟩] := by cbv
  have hline : Visit.Chosen scenes ⟨"cues[0]", .component "cue" .plain, false, muddledLine⟩ := by
    intro kind info hs _
    obtain ⟨rfl, -⟩ := Spec.component.inj hs
    exact ⟨cue, "line", _, rfl, rfl, rfl⟩
  rw [hseen]
  simp [Visit.chosen_terminal, hline]

theorem visits_in_blocks_muddled : scenes.check = .ok () ∧
    scenes.resources.find? "scene" = some sceneClass ∧ sceneClass.fields.lone? = none ∧
    (∀ f ∈ sceneClass.fields, f.1 ≠ "") ∧
    (∀ visit ∈ (scenes.resourceVisits .any "scene" muddled).seen, visit.Chosen scenes) ∧
    ∃ found, scenes.classProblems .empty "" sceneClass muddled = .ok found ∧
      ∀ visit ∈ (scenes.resourceVisits .terminal "scene" muddled).seen, ∃ own,
        scenes.problems .empty visit.path visit.spec visit.value = .ok own ∧ own <:+: found := by
  have hn : ∀ f ∈ sceneClass.fields, f.1 ≠ "" := by decide
  have h := visits_in_blocks (S := scenes) rfl (c := sceneClass) rfl rfl hn .empty chosen_muddled
  obtain ⟨found, hf⟩ := h.1.1 (returns_of_grounded grounded_scenes _)
  exact ⟨rfl, rfl, rfl, hn, chosen_muddled, found, hf, h.2 found hf⟩

-- one block for the id, and one for the cue before
example : scenes.classProblems .empty "" sceneClass muddled =
    .ok [.unfit "Integer" "cues[0].id" .nothing .anInteger,
      .unfit "Component reference" "cues[0].after" (.plain "7") (.memberOf "cue")] := by cbv

end Schema

end ScriptSchema
