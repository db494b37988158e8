import Mathlib.Algebra.Order.Group.Multiset
import Mathlib.Data.List.Forall2
import Mathlib.Data.Multiset.Filter
import Mathlib.Data.Option.NAry
import ScriptSchema.Proofs.Search

/-!
# What searches find, in whatever order

Searches of the same parts in another order find the same things, each as often. Only a fault that
ends them may be another one, since it is the first that is met.

* `Search.haul`: what is found, without its order;
* `haul_both`, `haul_gather_congr`, **`haul_gather_perm`**: searches in another order;
* `perm_of_haul_eq`, `haul_map_of_haul_eq`, `toOption_map_of_haul_eq`: searches with the same haul.
-/

namespace ScriptSchema

variable {α β : Type}

namespace Search

/-- What a search finds, without its order; nothing if it does not come to its end. -/
def haul : Search α → Option (Multiset α)
  | .ok as => some as
  | .error _ => none

theorem haul_both (x y : Search α) :
    (both x y).haul = Option.map₂ (· + ·) x.haul y.haul := by
  rcases x with _ | as
  · rfl
  · rcases y with _ | bs <;> rfl

theorem haul_filterMap (f : α → Option β) (x : Search α) :
    haul (x.map (List.filterMap f)) = x.haul.map (Multiset.filterMap f) := by
  rcases x with _ | as <;> rfl

/-! ## Searches in another order -/

/-- **The order of the parts does not matter.** -/
theorem haul_gather_perm {xs ys : List (Search α)} (h : xs.Perm ys) :
    haul (gather xs) = haul (gather ys) := by
  induction h with
  | nil => rfl
  | cons x _ ih => rw [gather, gather, haul_both, haul_both, ih]
  | swap x y xs =>
    simp only [gather, haul_both]
    exact Option.map₂_left_comm add_left_comm
  | trans _ _ ih ih' => exact ih.trans ih'

theorem haul_gather_forall₂ {xs ys : List (Search α)}
    (h : List.Forall₂ (fun x y => haul x = haul y) xs ys) :
    haul (gather xs) = haul (gather ys) := by
  induction h with
  | nil => rfl
  | cons hx _ ih => rw [gather, gather, haul_both, haul_both, hx, ih]

theorem haul_gather_congr {f g : β → Search α} {bs : List β}
    (h : ∀ b ∈ bs, haul (f b) = haul (g b)) :
    haul (gather (bs.map f)) = haul (gather (bs.map g)) := by
  refine haul_gather_forall₂ ?_
  rw [List.forall₂_map_left_iff, List.forall₂_map_right_iff, List.forall₂_same]
  exact h

/-- A part of a part may be looked at in the end. -/
theorem haul_gather_both (xs ys : List (Search α)) (x y : Search α) :
    haul (gather (xs ++ both x y :: ys)) = haul (both (gather (xs ++ x :: ys)) y) := by
  have hsplit : gather (xs ++ both x y :: ys) = gather (xs ++ x :: y :: ys) := by
    rw [gather_append, gather_append, gather, gather, gather, both_assoc]
  have hlast : both (gather (xs ++ x :: ys)) y = gather (xs ++ x :: ys ++ [y]) := by
    rw [gather_append (xs ++ x :: ys), gather_singleton]
  rw [hsplit, hlast, List.append_assoc, List.cons_append]
  exact haul_gather_perm ((List.perm_append_singleton y ys).symm.cons x |>.append_left xs)

/-! ## The same haul -/

theorem haul_eq_some_iff {x : Search α} {m : Multiset α} :
    x.haul = some m ↔ ∃ as, x = .ok as ∧ ↑as = m := by
  rcases x with _ | as <;> simp [haul]

theorem perm_of_haul_eq {x y : Search α} (h : x.haul = y.haul) {as : List α} (hx : x = .ok as) :
    ∃ bs, y = .ok bs ∧ as.Perm bs := by
  subst hx
  obtain ⟨bs, hy, hp⟩ := haul_eq_some_iff.1 h.symm
  exact ⟨bs, hy, (Multiset.coe_eq_coe.1 hp).symm⟩

theorem eq_nil_iff_of_haul_eq {x y : Search α} (h : x.haul = y.haul) :
    x = .ok [] ↔ y = .ok [] := by
  constructor
  · intro hx
    obtain ⟨bs, hy, hp⟩ := perm_of_haul_eq h hx
    rwa [List.nil_perm.1 hp] at hy
  · intro hy
    obtain ⟨as, hx, hp⟩ := perm_of_haul_eq h.symm hy
    rwa [List.nil_perm.1 hp] at hx

theorem haul_eq_of_toOption_eq {x y : Search α} (h : x.toOption = y.toOption) :
    x.haul = y.haul := by
  rcases x with _ | as
  · rcases y with _ | bs
    · rfl
    · nomatch h
  · rcases y with _ | bs
    · nomatch h
    · exact congrArg _ (congrArg _ (Option.some.inj h))

/-- What is made of the same haul has the same haul, if the order does not matter for it. -/
theorem haul_map_of_haul_eq {f : List α → List β} (hf : ∀ as bs, as.Perm bs → (f as).Perm (f bs))
    {x y : Search α} (h : x.haul = y.haul) : haul (x.map f) = haul (y.map f) := by
  rcases x with _ | as
  · rcases y with _ | bs
    · rfl
    · nomatch h
  · obtain ⟨bs, rfl, hp⟩ := perm_of_haul_eq h rfl
    exact congrArg some (Multiset.coe_eq_coe.2 (hf as bs hp))

theorem toOption_map (f : List α → β) (x : Search α) :
    (x.map f).toOption = x.toOption.map f := by
  rcases x with _ | as <;> rfl

/-- Readings for which the order does not matter are the same of the same haul. -/
theorem toOption_map_of_haul_eq {f : List α → β} (hf : ∀ as bs, as.Perm bs → f as = f bs)
    {x y : Search α} (h : x.haul = y.haul) : (x.map f).toOption = (y.map f).toOption := by
  rcases x with _ | as
  · rcases y with _ | bs
    · rfl
    · nomatch h
  · obtain ⟨bs, rfl, hp⟩ := perm_of_haul_eq h rfl
    exact congrArg some (hf as bs hp)

end Search

end ScriptSchema
