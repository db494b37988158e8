import ScriptSchema.Proofs.Blocks

/-!
# Paths that lead on

A path is plain text. A field adds its name behind a dot, an item or an entry its index or key in
brackets, as it is. What was added can be told from the text, unless a key looks like another key
with a way onwards behind it.

* `Path.Plain`: a name without dots and brackets;
* `Path.IsTail`: what a path can go on with;
* `Path.Onward`: a path that is another one, or leads on from there;
* `Path.Continues`: a key that looks like another one and a way onwards;
* **`name_eq_of_onward`**, **`key_eq_of_onward`**: what the first step was.
-/

namespace ScriptSchema

namespace Path

/-- A name without dots and brackets. -/
def Plain (name : String) : Prop := ∀ c ∈ name.toList, c ≠ '.' ∧ c ≠ '[' ∧ c ≠ ']'

/-! ## Tails -/

/-- What a path can go on with: nothing, or a dot or an opening bracket first. An opening bracket
stands in front of every closing one. -/
structure IsTail (tail : List Char) : Prop where
  head : ∀ c ∈ tail.head?, c = '.' ∨ c = '['
  opened : ∀ before after, tail = before ++ ']' :: after → '[' ∈ before

theorem isTail_nil : IsTail [] where
  head := nofun
  opened before after h := by simp at h

/-- What stands in brackets does not matter. -/
theorem isTail_bracket (rest : List Char) : IsTail ('[' :: rest) where
  head _ h := .inr (Option.some.inj h).symm
  opened before after h := by
    cases before with
    | nil => simp at h
    | cons c before =>
      obtain rfl := (List.cons.inj h).1
      exact List.mem_cons_self

theorem IsTail.field {tail : List Char} (h : IsTail tail) {name : String} (hn : Plain name) :
    IsTail ('.' :: (name.toList ++ tail)) where
  head _ hc := .inl (Option.some.inj hc).symm
  opened before after hx := by
    rw [← List.cons_append, List.append_eq_append_iff] at hx
    obtain ⟨more, rfl, ht⟩ | ⟨more, hname, ht⟩ := hx
    · exact List.mem_append_right _ (h.opened more after ht)
    · cases more with
      | nil => exact absurd (h.opened [] after ht.symm) List.not_mem_nil
      | cons c more =>
        -- no closing bracket is part of the name
        obtain rfl := (List.cons.inj ht).1
        have hmem : ']' ∈ '.' :: name.toList := hname ▸ List.mem_append_right _ List.mem_cons_self
        rcases List.mem_cons.1 hmem with hc | hc
        · nomatch hc
        · exact absurd rfl (hn _ hc).2.2

/-! ## Onwards -/

/-- The path `p` is the other one, or leads on from there. -/
def Onward (path p : String) : Prop := ∃ tail, p.toList = path.toList ++ tail ∧ IsTail tail

theorem Onward.refl (path : String) : Onward path path := ⟨[], (List.append_nil _).symm, isTail_nil⟩

theorem toList_entry (path key : String) :
    (entry path key).toList = path.toList ++ '[' :: (key.toList ++ [']']) := by
  simp [entry, String.toList_append]

theorem toList_field {path : String} (h : path ≠ "") (name : String) :
    (field path name).toList = path.toList ++ '.' :: name.toList := by
  simp [field_of_ne h, String.toList_append]

/-- Behind an entry a path leads on. -/
theorem Onward.of_entry {path key p : String} (h : Onward (entry path key) p) :
    Onward path p ∧ p ≠ path := by
  obtain ⟨tail, hp, -⟩ := h
  rw [toList_entry, List.append_assoc] at hp
  refine ⟨⟨_, hp, isTail_bracket _⟩, ?_⟩
  rintro rfl
  simp at hp

theorem Onward.of_field {path name p : String} (hpath : path ≠ "") (hn : Plain name)
    (h : Onward (field path name) p) : Onward path p ∧ p ≠ path := by
  obtain ⟨tail, hp, ht⟩ := h
  rw [toList_field hpath, List.append_assoc, List.cons_append] at hp
  refine ⟨⟨_, hp, ht.field hn⟩, ?_⟩
  rintro rfl
  simp at hp

/-! ## The first step -/

/-- Names end where a tail begins. -/
theorem takeWhile_plain {name : String} (hn : Plain name) {tail : List Char} (ht : IsTail tail) :
    (name.toList ++ tail).takeWhile (fun c => c != '.' && c != '[') = name.toList := by
  have hname : ∀ c ∈ name.toList, (c != '.' && c != '[') = true := fun c hc => by
    simp [(hn c hc).1, (hn c hc).2.1]
  rw [List.takeWhile_append_of_pos hname]
  cases tail with
  | nil => exact List.append_nil _
  | cons c tail =>
    rcases ht.head c rfl with rfl | rfl
    · exact List.append_nil _
    · exact List.append_nil _

/-- **The field at which a path leads on can be told from the path.** -/
theorem name_eq_of_onward {path name name' p : String} (hn : Plain name) (hn' : Plain name')
    (h : Onward (field path name) p) (h' : Onward (field path name') p) : name = name' := by
  obtain ⟨tail, hp, ht⟩ := h
  obtain ⟨tail', hp', ht'⟩ := h'
  have hrest : name.toList ++ tail = name'.toList ++ tail' := by
    rw [hp] at hp'
    by_cases hpath : path = ""
    · rwa [field, field, if_pos hpath, if_pos hpath] at hp'
    · rw [toList_field hpath, toList_field hpath, List.append_assoc, List.append_assoc,
        List.append_right_inj] at hp'
      exact (List.cons.inj hp').2
  have htake := congrArg (List.takeWhile fun c => c != '.' && c != '[') hrest
  rw [takeWhile_plain hn ht, takeWhile_plain hn' ht'] at htake
  exact String.toList_inj.1 htake

/-- The second key looks like the first one and a way onwards: behind the first key and a closing
bracket there is a dot or an opening bracket, and an opening bracket somewhere. -/
def Continues (key key' : String) : Prop :=
  ∃ rest, key'.toList = key.toList ++ ']' :: rest ∧ (∀ c ∈ rest.head?, c = '.' ∨ c = '[') ∧
    '[' ∈ rest

/-- A key without a closing bracket does not look like that. -/
theorem not_continues {key key' : String} (h : ']' ∉ key'.toList) : ¬ Continues key key' := by
  rintro ⟨rest, hr, -⟩
  exact h (hr ▸ List.mem_append_right _ List.mem_cons_self)

/-- If a path may have gone through either of two keys, one looks like the other and a way
onwards. -/
theorem eq_or_continues {key key' : String} {tail tail' : List Char} (ht : IsTail tail)
    (ht' : IsTail tail') (h : key.toList ++ ']' :: tail = key'.toList ++ ']' :: tail') :
    key = key' ∨ Continues key key' ∨ Continues key' key := by
  have hstep {key key' : String} {tail tail' more : List Char} (ht : IsTail tail)
      (hkey : key'.toList = key.toList ++ more) (hmore : ']' :: tail = more ++ ']' :: tail') :
      key = key' ∨ Continues key key' := by
    cases more with
    | nil => exact .inl (String.toList_inj.1 (by rw [hkey, List.append_nil]))
    | cons c rest =>
      obtain ⟨rfl, hrest⟩ := List.cons.inj hmore
      have hopen : '[' ∈ rest := ht.opened rest tail' hrest
      refine .inr ⟨rest, hkey, fun c hc => ht.head c ?_, hopen⟩
      cases rest with
      | nil => nomatch hc
      | cons c' rest => rw [hrest]; exact hc
  rcases List.append_eq_append_iff.1 h with ⟨more, hkey, hmore⟩ | ⟨more, hkey, hmore⟩
  · exact (hstep ht hkey hmore).imp_right .inl
  · exact (hstep ht' hkey hmore).imp Eq.symm .inr

/-- **The entry at which a path leads on can be told from the path**, unless one of the keys looks
like the other and a way onwards. -/
theorem key_eq_of_onward {path key key' p : String} (hk : ¬ Continues key key')
    (hk' : ¬ Continues key' key) (h : Onward (entry path key) p) (h' : Onward (entry path key') p) :
    key = key' := by
  obtain ⟨tail, hp, ht⟩ := h
  obtain ⟨tail', hp', ht'⟩ := h'
  rw [hp] at hp'
  rw [toList_entry, toList_entry, List.append_assoc, List.append_assoc, List.append_right_inj,
    List.cons_append, List.cons_append, List.cons.injEq, List.append_assoc,
    List.append_assoc] at hp'
  rcases eq_or_continues ht ht' hp'.2 with he | hc | hc
  · exact he
  · exact absurd hc hk
  · exact absurd hc hk'

theorem entry_inj {path key key' : String} : entry path key = entry path key' ↔ key = key' := by
  rw [← String.toList_inj, toList_entry, toList_entry, List.append_right_inj, List.cons.injEq,
    List.append_left_inj, String.toList_inj]
  exact and_iff_right rfl

/-- The item at which a path leads on can always be told from the path. -/
theorem index_eq_of_onward {path p : String} {i j : Nat} (h : Onward (item path i) p)
    (h' : Onward (item path j) p) : i = j := by
  have hdigits (n : Nat) : ']' ∉ (toString n).toList := by
    rw [Nat.toString_eq_repr, Nat.toList_repr]
    exact fun hc => absurd (Nat.isDigit_of_mem_toDigits (by decide) (by decide) hc) (by decide)
  have hsame : (toString i).toList = (toString j).toList := congrArg String.toList
    (key_eq_of_onward (not_continues (hdigits j)) (not_continues (hdigits i)) h h')
  rw [Nat.toString_eq_repr, Nat.toString_eq_repr, Nat.toList_repr, Nat.toList_repr] at hsame
  -- the digits can be read back
  rw [← Nat.ofDigitChars_ten_toDigits (n := i), hsame, Nat.ofDigitChars_ten_toDigits]

end Path

end ScriptSchema
