import Mathlib.Tactic.SplitIfs
import ScriptSchema.Json.Reader
import ScriptSchema.Json.Text

/-!
# The text of a string is its own

A string is written between quotes, with some of its characters escaped, and can be read back. No
other value has a text that starts with a quote. What a message shows of a value is therefore told
by its text: values with the same text are shown the same.

* `stringBody?_backslash`, `stringBody?_control`, `stringBody?_plain`: one character is read back;
* `stringBody?_flatMap`, **`quoted_injective`**: all characters of a string are;
* `quote_notMem_number`: numbers are written without quotes;
* `text_eq_quoted_iff`, **`shown_eq_of_text_eq`**: values with the same text.
-/

namespace ScriptSchema

/-! ## Strings -/

namespace Token

theorem stringBody?_backslash {e c : Char} (h : unescape? e = some c) (cs : List Char) :
    stringBody? ('\\' :: e :: cs) =
      (stringBody? cs).map fun (body, rest) => (c :: body, rest) := by
  have hu : e ≠ 'u' := by
    rintro rfl
    nomatch h
  rw [stringBody?]
  · rw [h]
    rcases stringBody? cs with _ | ⟨body, rest⟩ <;> rfl
  · intro a b c d cs' he
    exact absurd he hu

theorem codeUnit?_digitChar : ∀ n < 32,
    codeUnit? '0' '0' (Nat.digitChar (n / 16)) (Nat.digitChar (n % 16)) = some n := by
  decide

theorem stringBody?_control {c : Char} (hc : c < ' ') (cs : List Char) :
    stringBody? ('\\' :: 'u' :: '0' :: '0' :: Nat.digitChar (c.toNat / 16) ::
        Nat.digitChar (c.toNat % 16) :: cs) =
      (stringBody? cs).map fun (body, rest) => (c :: body, rest) := by
  have hn : c.toNat < 32 := hc
  rw [stringBody?, codeUnit?_digitChar c.toNat hn, Option.bind_eq_bind, Option.bind_some]
  dsimp only
  rw [if_neg (by omega), if_neg (by omega), Char.ofNat_toNat]
  rcases stringBody? cs with _ | ⟨body, rest⟩ <;> rfl

theorem stringBody?_plain {c : Char} (hq : c ≠ '"') (hb : c ≠ '\\') (hc : ¬ c < ' ')
    (cs : List Char) :
    stringBody? (c :: cs) = (stringBody? cs).map fun (body, rest) => (c :: body, rest) := by
  rw [stringBody?]
  · rw [if_neg (by simp [hc, hb])]
  · exact hq
  · intro a b c d cs' h
    exact absurd h hb
  · intro e cs' h
    exact absurd h hb

theorem stringBody?_escaped (c : Char) (cs : List Char) :
    stringBody? (escaped c ++ cs) =
      (stringBody? cs).map fun (body, rest) => (c :: body, rest) := by
  unfold escaped
  split_ifs with hq hb h1 h2 h3 h4 h5 hc
  · exact stringBody?_backslash (by rw [hq]; rfl) cs
  · exact stringBody?_backslash (by rw [hb]; rfl) cs
  · exact stringBody?_backslash (by rw [h1]; rfl) cs
  · exact stringBody?_backslash (by rw [h2]; rfl) cs
  · exact stringBody?_backslash (by rw [h3]; rfl) cs
  · exact stringBody?_backslash (by rw [h4]; rfl) cs
  · exact stringBody?_backslash (by rw [h5]; rfl) cs
  · exact stringBody?_control hc cs
  · exact stringBody?_plain hq hb hc cs

/-- The characters of a string are read back up to the closing quote. -/
theorem stringBody?_flatMap (body rest : List Char) :
    stringBody? (body.flatMap escaped ++ '"' :: rest) = some (body, rest) := by
  induction body with
  | nil => rw [List.flatMap_nil, List.nil_append, stringBody?]
  | cons c body ih =>
    rw [List.flatMap_cons, List.append_assoc, stringBody?_escaped, ih]
    rfl

end Token

theorem toList_quoted (s : String) :
    (quoted s).toList = '"' :: (s.toList.flatMap escaped ++ ['"']) := by
  simp only [quoted, String.toList_append, String.toList_ofList]
  rfl

/-- **Different strings have different texts.** -/
theorem quoted_injective : Function.Injective quoted := by
  intro s t h
  have hbody : s.toList.flatMap escaped ++ ['"'] = t.toList.flatMap escaped ++ ['"'] := by
    have hl := congrArg String.toList h
    rw [toList_quoted, toList_quoted] at hl
    exact List.tail_eq_of_cons_eq hl
  have hread := congrArg Token.stringBody? hbody
  rw [Token.stringBody?_flatMap, Token.stringBody?_flatMap, Option.some.injEq,
    Prod.mk.injEq] at hread
  exact String.toList_inj.1 hread.1

/-! ## Numbers -/

theorem quote_notMem_toDigits (n : Nat) : '"' ∉ Nat.toDigits 10 n := by
  intro h
  have hd : Char.isDigit '"' = true := Nat.isDigit_of_mem_toDigits (by decide) (by decide) h
  nomatch hd

theorem quote_notMem_positional {digits : List Char} (h : '"' ∉ digits) (place : Int) :
    '"' ∉ positional digits place := by
  unfold positional
  dsimp only
  split_ifs
  · simp [h]
  · simp [h]
  · have htake (n) : '"' ∉ digits.take n := fun hm => h (List.mem_of_mem_take hm)
    have hdrop (n) : '"' ∉ digits.drop n := fun hm => h (List.mem_of_mem_drop hm)
    simp [htake, hdrop]

theorem quote_notMem_scientific {digits : List Char} (h : '"' ∉ digits) (place : Int) :
    '"' ∉ scientific digits place := by
  have htake : '"' ∉ digits.take 1 := fun hm => h (List.mem_of_mem_take hm)
  have htail : '"' ∉ digits.tail := fun hm => h (List.mem_of_mem_tail hm)
  unfold scientific
  dsimp only
  split_ifs <;> simp [htake, htail, quote_notMem_toDigits]

theorem quote_notMem_decimal (range : PositionalRange) (d : Decimal) :
    '"' ∉ d.text range := by
  have hd := quote_notMem_toDigits d.digits
  have hsign : '"' ∉ (if d.negative then ['-'] else []) := by
    split_ifs <;> simp
  unfold Decimal.text
  dsimp only
  rw [List.mem_append, not_or]
  refine ⟨hsign, ?_⟩
  split_ifs
  · exact quote_notMem_positional hd _
  · exact quote_notMem_scientific hd _

/-- Numbers are written without quotes. -/
theorem quote_notMem_number (n : Number) : '"' ∉ n.text.toList := by
  cases n with
  | int n =>
    have hn (k : Nat) : '"' ∉ k.repr.toList := by
      rw [Nat.repr, String.toList_ofList]
      exact quote_notMem_toDigits k
    rw [Number.text, Int.toString_eq_repr, Int.repr_eq_if]
    split_ifs
    · exact hn _
    · rw [String.toList_append, List.mem_append, not_or]
      exact ⟨by decide, hn _⟩
  | float x =>
    rw [Number.text]
    split
    · decide
    · split_ifs <;> decide
    · rw [String.toList_ofList]
      exact quote_notMem_decimal _ _

/-! ## Values -/

namespace Value

/-- Only a string has the text of one. -/
theorem text_eq_quoted_iff {v : Value} {s : String} : v.text = quoted s ↔ v = .string s := by
  constructor
  · intro h
    have hl := congrArg String.toList h
    rw [toList_quoted] at hl
    cases v with
    | string t =>
      rw [text] at h
      rw [quoted_injective h]
    | null => nomatch hl
    | bool b => cases b <;> nomatch hl
    | number n =>
      rw [text] at hl
      exact absurd (hl ▸ List.mem_cons_self) (quote_notMem_number n)
    | array items =>
      rw [text, String.toList_append, String.toList_append] at hl
      nomatch hl
    | object entries =>
      rw [text, String.toList_append, String.toList_append] at hl
      nomatch hl
  · rintro rfl
    rw [text]

/-- **Values with the same text are shown the same.** -/
theorem shown_eq_of_text_eq {v w : Value} (h : v.text = w.text) : v.shown = w.shown := by
  have hshown {v : Value} (hv : ¬ ∃ s, v = .string s) : v.shown = v.text := by
    cases v with
    | string s => exact absurd ⟨s, rfl⟩ hv
    | _ => rfl
  by_cases hv : ∃ s, v = .string s
  · obtain ⟨s, rfl⟩ := hv
    rw [text_eq_quoted_iff.1 (h.symm.trans (text_eq_quoted_iff.2 rfl))]
  · by_cases hw : ∃ s, w = .string s
    · obtain ⟨s, rfl⟩ := hw
      rw [text_eq_quoted_iff.1 (h.trans (text_eq_quoted_iff.2 rfl))]
    · rw [hshown hv, hshown hw, h]

end Value

end ScriptSchema
