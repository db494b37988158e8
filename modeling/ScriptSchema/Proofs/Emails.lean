import ScriptSchema.Problem.Scalar
import ScriptSchema.Proofs.Matching

/-!
# Email addresses

The pattern for email addresses may begin anywhere in a text and end anywhere. It knows a display
name and angle brackets, but both may be left out, and so nothing is left of it but a scan for an
`@`, a point some way behind it, and no closing bracket up to there.

* `reads_address_iff`: the parts of an address;
* `AddressAt`, `exists_addressAt_iff`: where an address is, by positions and by parts;
* `occursIn_address_iff`, `occursIn_email`: the pattern with and without the optional parts;
* **`email_scan`**: which texts are accepted.
-/

namespace ScriptSchema

namespace Grammar

variable {cs : List Char}

theorem has_allBut_singleton {c d : Char} : (CharSet.allBut [d]).has c = true ↔ c ≠ d := by
  rw [CharSet.has_allBut]
  simp

/-- At least one character, and none of them is `d`. -/
theorem reads_some_allBut_iff {d : Char} :
    (Pattern.some (.allBut [d])).Reads cs ↔ cs ≠ [] ∧ d ∉ cs := by
  rw [Pattern.reads_some_iff]
  refine and_congr_right fun _ => ⟨fun h hd => ?_, fun h c hc => ?_⟩
  · exact has_allBut_singleton.1 (h d hd) rfl
  · exact has_allBut_singleton.2 fun hcd => h (hcd ▸ hc)

/-- An address has a part in front of the `@`, one up to the point, and one behind it. -/
theorem reads_address_iff : address.Reads cs ↔
    ∃ user host domain, cs = user ++ '@' :: (host ++ '.' :: domain) ∧ (user ≠ [] ∧ '\n' ∉ user) ∧
      (host ≠ [] ∧ '>' ∉ host) ∧ domain ≠ [] ∧ '>' ∉ domain := by
  unfold address
  constructor
  · intro h
    obtain ⟨_, domain, rfl, h, hdomain⟩ := Pattern.reads_append_iff.1 h
    obtain ⟨_, point, rfl, h, hpoint⟩ := Pattern.reads_append_iff.1 h
    obtain ⟨_, host, rfl, h, hhost⟩ := Pattern.reads_append_iff.1 h
    obtain ⟨user, sign, rfl, huser, hsign⟩ := Pattern.reads_append_iff.1 h
    obtain rfl := Pattern.reads_char_iff.1 hpoint
    obtain rfl := Pattern.reads_char_iff.1 hsign
    refine ⟨user, host, domain, by simp, reads_some_allBut_iff.1 huser,
      reads_some_allBut_iff.1 hhost, reads_some_allBut_iff.1 hdomain⟩
  · rintro ⟨user, host, domain, rfl, huser, hhost, hdomain⟩
    have hcs : user ++ '@' :: (host ++ '.' :: domain) =
        user ++ ['@'] ++ host ++ ['.'] ++ domain := by simp
    rw [hcs]
    refine Pattern.reads_append_iff.2 ⟨_, domain, rfl, ?_, reads_some_allBut_iff.2 hdomain⟩
    refine Pattern.reads_append_iff.2 ⟨_, ['.'], rfl, ?_, Pattern.reads_char_iff.2 rfl⟩
    refine Pattern.reads_append_iff.2 ⟨_, host, rfl, ?_, reads_some_allBut_iff.2 hhost⟩
    exact Pattern.reads_append_iff.2
      ⟨user, ['@'], rfl, reads_some_allBut_iff.2 huser, Pattern.reads_char_iff.2 rfl⟩

end Grammar

/-! ## Positions -/

/-- An address is around the `@` at position `p` and the point at position `j` of a text. -/
structure AddressAt (cs : List Char) (p j : Nat) : Prop where
  sign : cs[p]? = some '@'
  /-- Directly in front of the `@` stands a character that does not end a line. -/
  user : ∃ i x, p = i + 1 ∧ cs[i]? = some x ∧ x ≠ '\n'
  /-- There is something between the `@` and the point. -/
  host : p + 2 ≤ j
  point : cs[j]? = some '.'
  /-- There is something behind the point. -/
  domain : j + 1 < cs.length
  /-- Up to there no bracket is closed. -/
  unclosed : ∀ k, p + 1 ≤ k → k ≤ j + 1 → cs[k]? ≠ some '>'

theorem drop_eq_cons_of_getElem? {cs : List Char} {i : Nat} {c : Char} (h : cs[i]? = some c) :
    cs.drop i = c :: cs.drop (i + 1) := by
  obtain ⟨hi, rfl⟩ := List.getElem?_eq_some_iff.1 h
  exact List.drop_eq_getElem_cons hi

/-- Cut at the positions, the text falls into these parts. -/
theorem AddressAt.exists_parts {cs : List Char} {p j : Nat} (h : AddressAt cs p j) :
    ∃ front x host y back, cs = front ++ x :: '@' :: (host ++ '.' :: y :: back) ∧ x ≠ '\n' ∧
      (host ≠ [] ∧ '>' ∉ host) ∧ y ≠ '>' := by
  obtain ⟨i, x, rfl, hx, hn⟩ := h.user
  have hj := h.host
  have hd := h.domain
  have hy : cs[j + 1]? = some cs[j + 1] := List.getElem?_eq_getElem hd
  have hfront : cs.drop i = x :: '@' :: cs.drop (i + 2) := by
    rw [drop_eq_cons_of_getElem? hx, drop_eq_cons_of_getElem? h.sign]
  have hpoint : cs.drop j = '.' :: cs[j + 1] :: cs.drop (j + 2) := by
    rw [drop_eq_cons_of_getElem? h.point, drop_eq_cons_of_getElem? hy]
  have hbetween : cs.drop (i + 2) = (cs.drop (i + 2)).take (j - (i + 2)) ++ cs.drop j := by
    have hcut := List.take_append_drop (j - (i + 2)) (cs.drop (i + 2))
    rw [List.drop_drop, show i + 2 + (j - (i + 2)) = j by omega] at hcut
    exact hcut.symm
  refine ⟨cs.take i, x, (cs.drop (i + 2)).take (j - (i + 2)), cs[j + 1], cs.drop (j + 2), ?_, hn,
    ⟨?_, ?_⟩, ?_⟩
  · rw [← hpoint, ← hbetween, ← hfront, List.take_append_drop]
  · rw [← List.length_pos_iff, List.length_take, List.length_drop]
    omega
  · intro hmem
    obtain ⟨k, hk⟩ := List.mem_iff_getElem?.1 hmem
    rw [List.getElem?_take] at hk
    split at hk
    · rw [List.getElem?_drop] at hk
      exact h.unclosed (i + 2 + k) (by omega) (by omega) hk
    · cases hk
  · intro he
    exact h.unclosed (j + 1) (by omega) (Nat.le_refl _) (he ▸ hy)

/-- A text with these parts has an address at the positions where the parts meet. -/
theorem addressAt_parts {front host back : List Char} {x y : Char} (hx : x ≠ '\n')
    (hne : host ≠ []) (hhost : '>' ∉ host) (hy : y ≠ '>') :
    AddressAt (front ++ x :: '@' :: (host ++ '.' :: y :: back)) (front.length + 1)
      (front.length + 2 + host.length) := by
  have hpos := List.length_pos_iff.2 hne
  -- positions from the character in front of the address on, and from the one behind the `@` on
  have hat (k : Nat) : (front ++ x :: '@' :: (host ++ '.' :: y :: back))[front.length + k]? =
      (x :: '@' :: (host ++ '.' :: y :: back))[k]? := by
    rw [List.getElem?_append_right (by omega), Nat.add_sub_cancel_left]
  have hbehind (k : Nat) :
      (front ++ x :: '@' :: (host ++ '.' :: y :: back))[front.length + 2 + k]? =
        (host ++ '.' :: y :: back)[k]? := by
    rw [Nat.add_assoc, Nat.add_comm 2 k, hat]
    rfl
  refine
    { sign := hat 1
      user := ⟨front.length, x, rfl, hat 0, hx⟩
      host := by omega
      point := ?_
      domain := ?_
      unclosed := fun k hk hle => ?_ }
  · rw [hbehind, List.getElem?_append_right (Nat.le_refl _), Nat.sub_self]
    rfl
  · simp only [List.length_append, List.length_cons]
    omega
  · obtain ⟨m, rfl⟩ := Nat.exists_eq_add_of_le hk
    rw [hbehind]
    intro hm
    rcases Nat.lt_or_ge m host.length with hlt | hge
    · rw [List.getElem?_append_left hlt] at hm
      exact hhost (List.mem_of_getElem? hm)
    · rw [List.getElem?_append_right hge] at hm
      obtain hz | hz : m - host.length = 0 ∨ m - host.length = 1 := by omega
      · rw [hz] at hm
        cases hm
      · rw [hz] at hm
        exact hy (Option.some.inj hm)

/-- The same by the parts of the text: only the characters next to the `@` and behind the point, and
those between the two, matter. -/
theorem exists_addressAt_iff {cs : List Char} : (∃ p j, AddressAt cs p j) ↔
    ∃ front x host y back, cs = front ++ x :: '@' :: (host ++ '.' :: y :: back) ∧ x ≠ '\n' ∧
      (host ≠ [] ∧ '>' ∉ host) ∧ y ≠ '>' := by
  constructor
  · rintro ⟨p, j, h⟩
    exact h.exists_parts
  · rintro ⟨front, x, host, y, back, rfl, hx, ⟨hne, hhost⟩, hy⟩
    exact ⟨_, _, addressAt_parts hx hne hhost hy⟩

/-! ## The scan -/

namespace Grammar

variable {cs : List Char}

/-- Of what stands in front of the `@` and behind the point, one character each is enough. -/
theorem occursIn_address_iff : address.occursIn cs = true ↔ ∃ p j, AddressAt cs p j := by
  rw [Pattern.occursIn_iff, exists_addressAt_iff]
  constructor
  · rintro ⟨_, ⟨before, behind, rfl⟩, h⟩
    obtain ⟨user, host, domain, rfl, ⟨huser, hline⟩, hhost, hdomain, hopen⟩ := reads_address_iff.1 h
    obtain ⟨user, x, rfl⟩ := List.eq_nil_or_concat user |>.resolve_left huser
    obtain ⟨y, domain, rfl⟩ := List.exists_cons_of_ne_nil hdomain
    refine ⟨before ++ user, x, host, y, domain ++ behind, by simp, ?_, hhost, ?_⟩
    · rintro rfl
      exact hline (by simp)
    · rintro rfl
      exact hopen List.mem_cons_self
  · rintro ⟨front, x, host, y, back, rfl, hx, hhost, hy⟩
    refine ⟨[x] ++ '@' :: (host ++ '.' :: [y]), ⟨front, back, by simp⟩, ?_⟩
    refine reads_address_iff.2 ⟨[x], host, [y], rfl, ⟨List.cons_ne_nil x [], ?_⟩, hhost,
      List.cons_ne_nil y [], ?_⟩
    · exact fun hmem => hx (List.mem_singleton.1 hmem).symm
    · exact fun hmem => hy (List.mem_singleton.1 hmem).symm

/-- **The display name and the brackets never change the answer.** -/
theorem occursIn_email : email.occursIn cs = address.occursIn cs := by
  refine Pattern.occursIn_between (Pattern.reads_append_iff.2 ?_) Pattern.reads_nil_atMostOne
  exact ⟨[], [], rfl, Pattern.reads_nil_maybe, Pattern.reads_nil_atMostOne⟩

end Grammar

namespace Scalar

theorem emailProblem?_eq_none_iff {required : Bool} {label name s : String} :
    emailProblem? required label name (.string s) = none ↔
      (s = "" ∧ required = false) ∨ ∃ p j, AddressAt s.toList p j := by
  rw [← Grammar.occursIn_address_iff, ← Grammar.occursIn_email]
  by_cases hs : s = ""
  · subst hs
    -- a blank holds no address, so that only the first rule is left
    have hblank : Grammar.email.occursIn [] = false := by
      rw [Bool.eq_false_iff, Grammar.occursIn_email, Ne, Grammar.occursIn_address_iff]
      rintro ⟨p, j, h⟩
      exact absurd h.domain (Nat.not_lt_zero _)
    cases required <;> simp [emailProblem?, textProblem?, hblank]
  · simp [emailProblem?, textProblem?, hs]

/-- **Which texts are email addresses**: a blank that is not required, and texts in which a scan
finds the `@` and the point of an address. It finds them just where the pattern for an address
without a display name and without brackets occurs. -/
theorem email_scan :
    (∀ required name s, email.problem? required name (.string s) = none ↔
      (s = "" ∧ required = false) ∨ ∃ p j, AddressAt s.toList p j) ∧
    ∀ cs, Grammar.email.occursIn cs = Grammar.address.occursIn cs := by
  refine ⟨fun required name s => ?_, fun cs => Grammar.occursIn_email⟩
  rw [problem?, emailProblem?_eq_none_iff]

end Scalar

end ScriptSchema
