import ScriptSchema.Proofs.Faults
import ScriptSchema.Proofs.Stops

/-!
# The check of a schema is enough

A fault of the schema could come up in validation, on a walk, in a query or in a migration, long
after the schema was put together. Once the check has passed none of them does, whatever the script
and whatever editors and transforms make of it.

* `Schema.Faultless`: what a schema without faults can be used for;
* **`faultless_of_check`**: the check establishes that.
-/

namespace ScriptSchema

/-- No use of the schema ends with a fault of it. What may remain is a descent without an end, which
an editing walk cuts off at its depth. -/
structure Schema.Faultless (S : Schema) : Prop where
  validate : ∀ d r e, S.validate d r = .error (.schema e) → ∃ kind, e = .circular kind
  resourceIssues : ∀ d collection resource, Blameless (S.resourceIssues d collection resource)
  findings : ∀ focus d, Blameless (S.findings focus d).result
  /-- An editing walk comes to its end, if its editor never fails. -/
  editScript : ∀ {σ ε : Type} (focus : Focus) (editor : PlacedEditor σ ε),
    (∀ place owner visit s, (editor place owner visit s).error = none) →
    ∀ depth d s, (S.editScript focus editor depth d s).stop = none ∨
      (S.editScript focus editor depth d s).stop = some .tooDeep
  references : ∀ d, Blameless (S.references d)
  referrers : ∀ d collection name, Blameless (S.referrers d collection name)
  instanceReferrers : ∀ d kind id, Blameless (S.instanceReferrers d kind id)
  instances : ∀ d kind, S.Registers kind → Blameless (S.instances d kind)
  /-- A migration that fails does so with what one of its transforms returns. -/
  migrate : ∀ depth ms settings b, Workbench.build S depth ms settings = .ok b →
    ∀ d assets num name cause, b.migrate d assets = .error (.failed num name cause) →
      cause = .tooDeep ∨ ∃ text, cause = .raised text ∧
        ∃ a ∈ ms, a.num = num ∧ a.name = name ∧ ∃ step ∈ a.steps, step.Raises text

/-! ## Workbenches -/

theorem Plan.build_eq_ok {S : Schema} {depth : Nat} {ms : List Migration} {m : Plan}
    (h : Plan.build S depth ms = .ok m) : m = ⟨S, depth, Migration.sort ms⟩ := by
  unfold build at h
  dsimp only at h
  split at h
  · nomatch h
  · nomatch h
  · exact (Except.ok.inj h).symm

theorem Workbench.build_eq_ok {S : Schema} {depth : Nat} {ms : List Migration}
    {settings : Settings} {b : Workbench} (h : Workbench.build S depth ms settings = .ok b) :
    b = ⟨S, ⟨S, depth, Migration.sort ms⟩, settings⟩ := by
  obtain ⟨_, _, h⟩ := bind_eq_ok_iff.1 h
  obtain ⟨m, hm, h⟩ := bind_eq_ok_iff.1 h
  rw [Plan.build_eq_ok hm] at h
  exact (Except.ok.inj h).symm

/-! ## The check -/

namespace Schema

variable {S : Schema}

theorem validate_schema_fault {d : Script} {r : Requirements} {e : SchemaFault}
    (h : S.validate d r = .error (.schema e)) : S.contentIssues d r.refuseUnknown = .error e := by
  unfold validate at h
  dsimp only at h
  split at h
  · nomatch h
  · split at h
    · rename_i e' he
      rw [he, Refusal.schema.inj (Except.error.inj h)]
    · split at h <;> nomatch h

/-- **The check of a schema is enough**: no later use ends with a fault of the schema. -/
theorem faultless_of_check (h : S.check = .ok ()) : S.Faultless := by
  have hS : S.Sound := S.sound_of_check h
  refine
    { validate := fun d r e he => contentIssues_blameless hS d _ e (validate_schema_fault he)
      resourceIssues := resourceIssues_blameless hS
      findings := findings_blameless hS
      editScript := fun focus editor hq depth d s => ?_
      references := references_blameless hS
      referrers := referrers_blameless hS
      instanceReferrers := instanceReferrers_blameless hS
      instances := fun d kind hk => instances_blameless hS d hk
      migrate := fun depth ms settings b hb d assets num name cause hf => ?_ }
  · have hx : Edit.StopsBy (fun _ => False) (S.editScript focus editor depth d s) :=
      editScript_stopsBy hS focus (fun place owner visit s e he =>
        nomatch he.symm.trans (hq place owner visit s)) depth d s
    rcases hs : (S.editScript focus editor depth d s).stop with _ | stop
    · exact .inl rfl
    · rcases hx stop hs with rfl | ⟨_, _, hn⟩
      · exact .inr rfl
      · exact hn.elim
  · rw [Workbench.build_eq_ok hb] at hf
    obtain hd | ⟨text, ht, a, ha, hx⟩ := Plan.migrate_eq_failed ⟨S, depth, _⟩ hS d assets hf
    · exact .inl hd
    · exact .inr ⟨text, ht, a, List.mem_mergeSort.1 ha, hx⟩

/-- A part of a scene: a line that may follow another cue, or a block of cues. -/
def cue : Component where
  kind := "cue"
  tagging := .byKey "type"
  shared := [("id", .terminal (.scalar .integer) .plain)]
  variants := [("line", ⟨[("after", .terminal (.instanceId "cue") .plain)], none⟩),
    ("block", ⟨[("cues", .list (.component "cue" .plain) .plain)], none⟩)]
  key_ne := by decide
  variants_ne := by decide
  distinct := by decide

/-- Scenes have a name, perhaps a next scene, and cues, whose ids are unique in a script. -/
def scenes : Schema :=
  ((empty.addResource "scene" ⟨[("name", .terminal (.scalar .name) ⟨true, none⟩),
    ("next", .terminal (.reference "scenes" [] false) .plain),
    ("cues", .list (.component "cue" .plain) .plain)], none⟩).addComponent cue).addIdField
      "cue" "id"

theorem faultless_scenes : scenes.check = .ok () ∧ scenes.Faultless :=
  ⟨rfl, faultless_of_check rfl⟩

end Schema

end ScriptSchema
