import ScriptSchema.Migration.Workspace

/-!
# Handing the workspace on

The calls of a transform in a step share one workspace, which goes from hand to hand. What the first
call is given is known, and of the others that each is given what the one before left, whatever that
may be. So what every call keeps is there at each of them.

* `Relay`: every call is given what the one before left;
* `Relay.snoc`, `Relay.split`: one more call, and the calls in two parts;
* `Relay.keeps`, **`Relay.given_of_keeps`**: what the calls keep;
* `Relay.before`, `Relay.before_of_mem`: the script that a call can read;
* `Relay.queue`: what the calls queue, if none takes anything from the queue;
* `Transform.OnlyQueues`: a transform that takes notes and queues, and does nothing else.
-/

namespace ScriptSchema

variable {κ σ : Type}

/-- From the first state to the last, every call is given what the one before left. -/
inductive Relay (given left : κ → σ) : σ → List κ → σ → Prop
  | done (s : σ) : Relay given left s [] s
  | call (c : κ) {calls : List κ} {t : σ} :
    Relay given left (left c) calls t → Relay given left (given c) (c :: calls) t

namespace Relay

variable {given left : κ → σ} {s t : σ} {front back calls : List κ} {c : κ}

theorem snoc (h : Relay given left s calls (given c)) :
    Relay given left s (calls ++ [c]) (left c) := by
  generalize ht : given c = t at h
  induction h with
  | done s =>
    subst ht
    exact .call c (.done _)
  | call c' _ ih => exact .call c' (ih ht)

theorem split (h : Relay given left s (front ++ back) t) :
    ∃ u, Relay given left s front u ∧ Relay given left u back t := by
  induction front generalizing s with
  | nil => exact ⟨s, .done s, h⟩
  | cons c front ih =>
    cases h with
    | call _ h =>
      obtain ⟨u, hfront, hback⟩ := ih h
      exact ⟨u, .call c hfront, hback⟩

/-- What every call keeps, all of them together keep. -/
theorem keeps {p : σ → Prop} (h : Relay given left s calls t)
    (hk : ∀ c ∈ calls, p (given c) → p (left c)) (hs : p s) : p t := by
  induction h with
  | done s => exact hs
  | call c _ ih =>
    obtain ⟨hc, hk⟩ := List.forall_mem_cons.1 hk
    exact ih hk (hc hs)

/-- **A call is given what the calls before it keep.** -/
theorem given_of_keeps {p : σ → Prop} (h : Relay given left s (front ++ c :: back) t)
    (hk : ∀ c' ∈ front, p (given c') → p (left c')) (hs : p s) : p (given c) := by
  obtain ⟨u, hfront, hback⟩ := h.split
  cases hback with
  | call _ _ => exact hfront.keeps hk hs

end Relay

/-! ## Workspaces -/

namespace Relay

variable {given left : κ → Workspace} {w w' : Workspace} {calls : List κ}

section Script

variable {d : Script} (h : Relay given left w calls w') (hw : w.before = some d)
include h hw

/-- The script can be read at a call if those before it have left it to read. -/
theorem before {front back : List κ} {c : κ} (hc : calls = front ++ c :: back)
    (hk : ∀ c' ∈ front, (left c').before = (given c').before) : (given c).before = some d := by
  subst hc
  exact h.given_of_keeps (p := fun w => w.before = some d)
    (fun c' hc' hb => (hk c' hc').trans hb) hw

theorem before_of_mem (hk : ∀ c ∈ calls, (left c).before = (given c).before) {c : κ}
    (hc : c ∈ calls) : (given c).before = some d := by
  obtain ⟨front, back, rfl⟩ := List.append_of_mem hc
  exact h.before hw rfl fun c' hc' => hk c' (List.mem_append_left _ hc')

end Script

/-- If every call adds to the queue, it holds all that is queued, call by call. -/
theorem queue {queued : κ → List (String × Value)} (h : Relay given left w calls w')
    (hq : ∀ c ∈ calls, (left c).queue = (given c).queue ++ queued c) :
    w'.queue = w.queue ++ calls.flatMap queued := by
  induction h with
  | done w => exact (List.append_nil w.queue).symm
  | call c _ ih =>
    obtain ⟨hc, hq⟩ := List.forall_mem_cons.1 hq
    rw [ih hq, hc, List.flatMap_cons, List.append_assoc]

end Relay

/-- What a transform adds to the queue. -/
def Effect.queued {α : Type} (e : Effect α) : List (String × Value) :=
  match e.handling with
  | .queues resources => resources
  | .replaces _ _ _ => []

/-- The transform takes notes and adds to the queue, and leaves the workspace otherwise as it is. -/
def Transform.OnlyQueues {α : Type} (change : Transform α) : Prop :=
  ∀ w a, ∃ resources, (change w a).handling = .queues resources

theorem Transform.OnlyQueues.absorb {α : Type} {change : Transform α} (h : change.OnlyQueues)
    (w : Workspace) (a : α) : w.absorb (change w a) =
      { w with scratch := (change w a).scratch, queue := w.queue ++ (change w a).queued } := by
  obtain ⟨resources, hr⟩ := h w a
  rw [Workspace.absorb, Effect.queued, hr]

end ScriptSchema
