import ScriptSchema.Proofs.Conformance
import ScriptSchema.Proofs.InPlace

/-!
# The walk and the editing walk

A script may be read on a walk, and edited on one. With an editor that leaves keys and instances
alone the two go the same way, whatever else the editor does: to tags, to names, to values that are
described by more than one spec. What decides how the walk goes on has been read by then.

* `PlacedEditor.recorded`: an editor that writes down what it is handed;
* `Schema.EditsAlong`: an editing walk that goes the way of the walk;
* `Schema.Unison`, **`unison`**: the two walks through a script.
-/

namespace ScriptSchema

variable {σ ε : Type}

/-! ## Recorded editors -/

namespace PlacedEditor

/-- The editor that also writes down what it is asked about. -/
def recorded (editor : PlacedEditor σ ε) : PlacedEditor (List Finding × σ) ε :=
  fun place owner visit s =>
    let r := editor place owner visit s.2
    ⟨r.value, (s.1 ++ [⟨place, owner, visit⟩], r.state), r.error⟩

variable {editor : PlacedEditor σ ε}

theorem Gentle.recorded (h : editor.Gentle) : editor.recorded.Gentle := fun place owner =>
  { error := fun visit s => (h place owner).error visit s.2
    keeps := fun visit s => (h place owner).keeps visit s.2 }

theorem writes_recorded (xs : List (Spot Finding)) (v : Value) (log : List Finding) (s : σ) :
    Spot.writes editor.recorded.reply xs v (log, s) =
      ((Spot.writes editor.reply xs v s).1, log ++ xs.map Spot.part,
        (Spot.writes editor.reply xs v s).2) := by
  induction xs generalizing v log s with
  | nil => exact congrArg (fun log => (v, log, s)) (List.append_nil log).symm
  | cons x xs ih =>
    have hx := ih (Spot.write editor.reply (v, s) x).1 (log ++ [x.part])
      (Spot.write editor.reply (v, s) x).2
    rw [List.append_assoc] at hx
    exact hx

end PlacedEditor

namespace Schema

variable (S : Schema) (focus : Focus) (d : Script)

/-! ## The two walks -/

/-- The editing walk with the editor, the depth and the first state goes the way of the walk. -/
structure EditsAlong (editor : PlacedEditor σ ε) (depth : Nat) (s : σ) : Prop where
  /-- The editor is handed what the walk sees, in the same order. -/
  handed : (S.editScript focus editor.recorded depth d ([], s)).state.1 = (S.findings focus d).seen
  /-- The editing walk ends as the walk does. -/
  stop : (S.editScript focus editor depth d s).stop = (S.findings focus d).error.map .schema
  /-- The editor's answers are written where the visited values lie. -/
  result : ((S.editScript focus editor depth d s).value.value,
      (S.editScript focus editor depth d s).state) =
    Spot.writes editor.reply (S.scriptSpots focus d).seen d.value s
  /-- What the editor leaves at a visit is there in the end. -/
  left : ∀ before x after way, (S.scriptSpots focus d).seen = before ++ x :: after →
    x.way? = some way → x.part.visit.Open →
      (S.editScript focus editor depth d s).value.value.at? way =
        some (editor.reply x.part (Spot.writes editor.reply before d.value s).2).value
  /-- What lies apart from all of it stays. -/
  kept : ∀ way, (∀ x ∈ (S.scriptSpots focus d).seen, ∀ way', x.way? = some way' →
      x.part.visit.Open → Apart way way') →
    (S.editScript focus editor depth d s).value.value.at? way = d.value.at? way
  /-- An editor that changes nothing leaves the script as it is. -/
  same : (∀ f s, (editor.reply f s).value = f.visit.value) →
    (S.editScript focus editor depth d s).value = d

/-- **The walk and the editing walk through a script agree**, whatever a gentle editor does. -/
structure Unison : Prop where
  /-- Every visit of the walk has a spot. -/
  spots : (S.scriptSpots focus d).map Spot.part = S.findings focus d
  /-- The value that is handed over at a visit lies at its spot; only keys lie nowhere. -/
  lies : ∀ x ∈ (S.scriptSpots focus d).seen, (x.map Finding.visit).Lies d.value
  /-- If the walk goes in a circle, the editing walk goes too deep, however deep it may go. -/
  circular : ∀ kind, (S.findings focus d).error = some (.circular kind) →
    ∀ (σ ε : Type) (editor : PlacedEditor σ ε), editor.Gentle → ∀ depth s,
      (S.editScript focus editor depth d s).stop = some .tooDeep
  /-- If not, there is a depth from which on the editing walk goes the way of the walk. -/
  along : (∀ kind, (S.findings focus d).error ≠ some (.circular kind)) →
    ∃ n, ∀ (σ ε : Type) (editor : PlacedEditor σ ε), editor.Gentle → ∀ depth, n ≤ depth →
      ∀ s, S.EditsAlong focus d editor depth s

variable {S focus d}

theorem ofFault_of_not_circular {e : SchemaFault} (h : ∀ kind, e ≠ .circular kind) :
    (Stop.ofFault e : Stop ε) = .schema e := by
  cases e with
  | circular kind => exact absurd rfl (h kind)
  | _ => rfl

/-- Without a circle, an editing walk that may go deep enough only writes. -/
theorem EditsScriptInPlace.eq_applied {n : Nat} (h : S.EditsScriptInPlace focus d n)
    (hne : ∀ kind, (S.findings focus d).error ≠ some (.circular kind))
    {editor : PlacedEditor σ ε} (hg : editor.Gentle) {depth : Nat} (hd : n ≤ depth) (s : σ) :
    (S.editScript focus editor depth d s).map Script.value =
      ⟨(Spot.writes editor.reply (S.scriptSpots focus d).seen d.value s).1,
        (Spot.writes editor.reply (S.scriptSpots focus d).seen d.value s).2,
        (S.findings focus d).error.map .schema⟩ := by
  have hstop : (S.scriptSpots focus d).error.map Stop.ofFault =
      (S.findings focus d).error.map (Stop.schema : SchemaFault → Stop ε) := by
    have herror : (S.scriptSpots focus d).error = (S.findings focus d).error :=
      congrArg Trace.error (S.map_part_scriptSpots focus d)
    rw [herror]
    refine Option.map_congr fun e he => ofFault_of_not_circular fun kind hk => ?_
    exact hne kind (hk ▸ he)
  have happlied : (S.scriptSpots focus d).applied editor.reply d.value s =
      ⟨(Spot.writes editor.reply (S.scriptSpots focus d).seen d.value s).1,
        (Spot.writes editor.reply (S.scriptSpots focus d).seen d.value s).2,
        (S.findings focus d).error.map .schema⟩ := by
    rw [Trace.applied, hstop]
  obtain hx | ⟨-, hy⟩ := h σ ε editor hg depth s
  · exact hx.trans happlied
  · have hdeep := hy hd
    rw [happlied] at hdeep
    obtain ⟨e, -, he⟩ := Option.map_eq_some_iff.1 hdeep
    cases he

/-- An editing walk goes the way of the walk if it only writes. -/
theorem EditsScriptInPlace.along {n : Nat} (h : S.EditsScriptInPlace focus d n)
    (hS : S.Distinct) (hne : ∀ kind, (S.findings focus d).error ≠ some (.circular kind))
    {editor : PlacedEditor σ ε} (hg : editor.Gentle) {depth : Nat} (hd : n ≤ depth) (s : σ) :
    S.EditsAlong focus d editor depth s := by
  have hx := h.eq_applied hne hg hd s
  have hvalue : (S.editScript focus editor depth d s).value.value =
      (Spot.writes editor.reply (S.scriptSpots focus d).seen d.value s).1 :=
    congrArg Edit.value hx
  have hkeep (f : Finding) (s : σ) (ho : ¬ f.visit.Open) :
      (editor.reply f s).value = f.visit.value := (hg f.place f.owner).keeps f.visit s ho
  have hlies := S.lies_scriptSpots focus d
  have hbefore := before_scriptSpots hS focus d
  refine
    { handed := ?_
      stop := congrArg Edit.stop hx
      result := Prod.ext hvalue (congrArg Edit.state hx)
      left := fun before x after way hseen hway ho => ?_
      kept := fun way hway => ?_
      same := fun hsame => ?_ }
  · have hseen : (S.scriptSpots focus d).seen.map Spot.part = (S.findings focus d).seen :=
      congrArg Trace.seen (S.map_part_scriptSpots focus d)
    have hr := congrArg (fun r => r.state.1) (h.eq_applied hne hg.recorded hd ([], s))
    dsimp only at hr
    rw [PlacedEditor.writes_recorded, List.nil_append, hseen] at hr
    exact hr
  · rw [hvalue, hseen]
    rw [hseen] at hbefore
    exact Spot.at?_writes hkeep (fun y hy => hlies y (hseen ▸ hy)) hbefore hway ho s
  · rw [hvalue]
    exact Spot.at?_writes_of_apart hkeep hlies hbefore hway s
  · rw [Spot.writes_of_eq hsame hlies] at hvalue
    exact congrArg Script.mk (Value.object.inj hvalue)

/-- **The walk and the editing walk through a script agree.** -/
theorem unison (S : Schema) (hS : S.Distinct) (focus : Focus) (d : Script) : S.Unison focus d := by
  obtain ⟨n, hn⟩ := exists_editsScriptInPlace hS focus d
  refine
    { spots := S.map_part_scriptSpots focus d
      lies := S.lies_scriptSpots focus d
      circular := fun kind he σ ε editor hg depth s => ?_
      along := fun hne => ⟨n, fun σ ε editor hg depth hd s => hn.along hS hne hg hd s⟩ }
  obtain hx | ⟨hx, -⟩ := hn σ ε editor hg depth s
  · have herror : (S.scriptSpots focus d).error = some (.circular kind) :=
      (congrArg Trace.error (S.map_part_scriptSpots focus d)).trans he
    have hstop : (S.editScript focus editor depth d s).stop =
        (S.scriptSpots focus d).error.map .ofFault := congrArg Edit.stop hx
    rw [hstop, herror]
    rfl
  · exact hx

/-- The editor that counts its visits, and leaves nothing of what it may replace. -/
def blank : PlacedEditor Nat Empty
  | _, _, ⟨_, .component _ _, _, v⟩, n => ⟨v, n + 1, none⟩
  | _, _, ⟨_, _, onKey, v⟩, n => ⟨if onKey then v else .null, n + 1, none⟩

theorem gentle_blank : blank.Gentle := by
  intro place owner
  refine ⟨fun ⟨path, spec, onKey, v⟩ n => ?_, fun ⟨path, spec, onKey, v⟩ n ho => ?_⟩
  · cases spec <;> rfl
  · cases onKey with
    | true => cases spec <;> rfl
    | false =>
      cases spec with
      | component kind info => rfl
      | _ => exact absurd ⟨rfl, nofun⟩ ho

theorem unison_twoScenes : scenes.Distinct ∧
    (∀ kind, (scenes.findings .any twoScenes).error ≠ some (.circular kind)) ∧ blank.Gentle ∧
    ∃ n, ∀ depth, n ≤ depth → ∀ k, scenes.EditsAlong .any twoScenes blank depth k := by
  have herror : (scenes.findings .any twoScenes).error = none := by cbv
  have hne (kind) : (scenes.findings .any twoScenes).error ≠ some (.circular kind) := by
    rw [herror]
    exact (Option.some_ne_none _).symm
  obtain ⟨n, hn⟩ := (unison scenes distinct_scenes .any twoScenes).along hne
  exact ⟨distinct_scenes, hne, gentle_blank, n, hn Nat Empty blank gentle_blank⟩

-- the tags of the cues go too, and what lies below is found all the same
example : (scenes.editScript .any blank 9 twoScenes 0).value =
    ⟨[("meta", .object [("version", .number (.int 1))]),
      ("scenes", .array [
        .object [("name", .null), ("next", .null),
          ("cues", .array [
            .object [("type", .null), ("id", .null)],
            .object [("type", .null), ("id", .null),
              ("cues", .array [.object [("type", .null), ("id", .null), ("after", .null)]])]])],
        .object [("name", .null)]])]⟩ := by cbv

end Schema

end ScriptSchema
