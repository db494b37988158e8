import ScriptSchema.Proofs.Follow

/-!
# Renaming the keys of a dictionary

On an editing walk every key of a dictionary is handed to the editor, and the dictionary is put
together again from what the editor left of the keys. An object has a key only once: entries whose
keys have become the same are one entry from then on.

* `keys_overlay`, `lookup_overlay`, `overlay_of_nodup`: entries that are written one after the other;
* `Editor.namesLeft`: what an editor leaves of some keys;
* `Edit.keys_eq_ofPairs`, `Edit.keys_eq_zip`: the entries under the keys that were left;
* `Entries.Renamed`, **`keys_renamed`**: which keys there are then, and what they hold;
* `not_keys_kept`: entries may be lost.
-/

namespace ScriptSchema

/-! ## Entries that are written one after the other -/

theorem eraseDups_sublist : (names : List String) → names.eraseDups.Sublist names
  | [] => .refl _
  | name :: names => by
    rw [List.eraseDups_cons]
    exact ((eraseDups_sublist _).trans List.filter_sublist).cons_cons name
termination_by names => names.length
decreasing_by exact Nat.lt_succ_of_le (List.length_filter_le _ _)

namespace Entries

variable {α : Type}

theorem lookup_overlay (es upper : Entries α) (key : String) :
    (es.overlay upper).lookup key = (upper.reverse.lookup key).or (es.lookup key) := by
  unfold overlay
  induction upper generalizing es with
  | nil => rfl
  | cons e upper ih =>
    rw [List.foldl_cons, ih, lookup_put, List.reverse_cons, List.lookup_append, Option.or_assoc]
    congr 1
    obtain ⟨k, a⟩ := e
    by_cases h : key = k
    · simp [h]
    · simp [List.lookup_cons, beq_eq_false_iff_ne.2 h, h]

/-- Keys that are new are added in the order in which they come first. -/
theorem keys_overlay (es upper : Entries α) :
    (es.overlay upper).keys =
      es.keys ++ (upper.keys.filter fun k => decide (k ∉ es.keys)).eraseDups := by
  unfold overlay
  induction upper generalizing es with
  | nil => simp [keys]
  | cons e upper ih =>
    obtain ⟨key, a⟩ := e
    have hkeys : keys ((key, a) :: upper) = key :: keys upper := rfl
    rw [List.foldl_cons, ih, keys_put, hkeys, List.filter_cons]
    by_cases h : key ∈ es.keys
    · simp only [h, if_true, not_true_eq_false, decide_false, Bool.false_eq_true, if_false]
    · simp only [h, if_false, not_false_eq_true, decide_true, if_true]
      rw [List.eraseDups_cons, List.filter_filter, List.append_assoc, List.singleton_append]
      congr 3
      refine List.filter_congr fun k _ => ?_
      by_cases hk : k = key <;> simp [hk]

theorem keys_ofPairs (pairs : List (String × α)) :
    (ofPairs pairs).keys = (pairs.map Prod.fst).eraseDups := by
  have hall : (keys pairs).filter (fun k => decide (k ∉ keys ([] : Entries α))) = keys pairs :=
    List.filter_eq_self.2 fun k _ => decide_eq_true List.not_mem_nil
  rw [ofPairs, keys_overlay, hall]
  rfl

theorem lookup_ofPairs (pairs : List (String × α)) (key : String) :
    (ofPairs pairs).lookup key = pairs.reverse.lookup key := by
  rw [ofPairs, lookup_overlay, List.lookup_nil, Option.or_none]

/-- Entries under new keys are added as they are. -/
theorem overlay_of_nodup {es upper : Entries α} (h : (es.keys ++ upper.keys).Nodup) :
    es.overlay upper = es ++ upper := by
  unfold overlay
  induction upper generalizing es with
  | nil => rw [List.foldl_nil, List.append_nil]
  | cons e upper ih =>
    obtain ⟨key, a⟩ := e
    have hkeys : es.keys ++ keys ((key, a) :: upper) = keys (es ++ [(key, a)]) ++ keys upper := by
      simp [keys]
    have hnew : es.lookup key = none := by
      refine Option.not_isSome_iff_eq_none.1 fun hs => ?_
      exact (List.nodup_append.1 h).2.2 key ((has_iff es key).1 hs) key List.mem_cons_self rfl
    rw [hkeys] at h
    rw [List.foldl_cons, put_eq_append hnew, ih h, List.append_assoc]
    rfl

theorem ofPairs_of_nodup {pairs : List (String × α)} (h : (pairs.map Prod.fst).Nodup) :
    ofPairs pairs = pairs := by
  have hkeys : (keys ([] : Entries α) ++ keys pairs).Nodup := h
  exact overlay_of_nodup hkeys

/-- The entries of `es` under other keys: what it looks like from outside. -/
structure Renamed (es : Entries α) (names : List String) (renamed : Entries α) : Prop where
  /-- There is a name for every entry. -/
  length_names : names.length = es.length
  /-- Every name is a key, in the order in which the names come first. -/
  keys : renamed.keys = names.eraseDups
  /-- A key holds what the last entry with this name holds. -/
  lookup : ∀ name, renamed.lookup name = (names.zip (es.map Prod.snd)).reverse.lookup name
  /-- No entry is lost if no two entries have the same name, and only then. -/
  length : renamed.length = es.length ↔ names.Nodup
  /-- In that case every entry stays where it is, with what it holds. -/
  inPlace : names.Nodup → renamed = names.zip (es.map Prod.snd)

theorem renamed_ofPairs {es : Entries α} {names : List String} (h : names.length = es.length) :
    es.Renamed names (ofPairs (names.zip (es.map Prod.snd))) := by
  have hlength : names.length = (es.map Prod.snd).length := h.trans (List.length_map _).symm
  have hnames : (names.zip (es.map Prod.snd)).map Prod.fst = names :=
    List.map_fst_zip (Nat.le_of_eq hlength)
  have hkeys : (ofPairs (names.zip (es.map Prod.snd))).keys = names.eraseDups := by
    rw [keys_ofPairs, hnames]
  have hcount : (ofPairs (names.zip (es.map Prod.snd))).length = names.eraseDups.length := by
    rw [← hkeys, keys, List.length_map]
  have hplace (hn : names.Nodup) :
      ofPairs (names.zip (es.map Prod.snd)) = names.zip (es.map Prod.snd) :=
    ofPairs_of_nodup (hnames.symm ▸ hn)
  refine ⟨h, hkeys, lookup_ofPairs _, ⟨fun hl => ?_, fun hn => ?_⟩, hplace⟩
  · have heq := (eraseDups_sublist names).eq_of_length (hcount.symm.trans (hl.trans h.symm))
    rw [← heq, ← hkeys]
    exact distinct_ofPairs _
  · rw [hplace hn, List.length_zip, List.length_map, h, Nat.min_self]

end Entries

/-! ## Editing keys -/

variable {σ ε : Type}

/-- The strings that an editor leaves of some keys, and its state after that. A key of which it
leaves no string stays as it is. -/
def Editor.namesLeft (editor : Editor σ ε) (path : String) (spec : Spec) :
    List String → σ → List String × σ
  | [], s => ([], s)
  | key :: keys, s =>
    let r := editor ⟨Path.entry path key, spec, true, .string key⟩ s
    let rest := namesLeft editor path spec keys r.state
    (r.value.string?.getD key :: rest.1, rest.2)

namespace Edit

section Keys

variable {editor : Editor σ ε} (hf : ∀ visit s, (editor visit s).error = none) (path : String)
  (spec : Spec)
include hf

theorem members_eq_namesLeft (index : Nat) (keys : List String) (s : σ) :
    members (fun _ key s => (ask editor ⟨Path.entry path key, spec, true, .string key⟩ s).map
        fun v => v.string?.getD key) index keys s =
      keep (editor.namesLeft path spec keys s).1 (editor.namesLeft path spec keys s).2 := by
  induction keys generalizing index s with
  | nil => rfl
  | cons key keys ih =>
    let visit : Visit := ⟨Path.entry path key, spec, true, .string key⟩
    have hone : (ask editor visit s).map (fun v => v.string?.getD key) =
        keep ((editor visit s).value.string?.getD key) (editor visit s).state := by
      rw [ask_eq_keep (hf visit s)]
      rfl
    rw [members_cons, hone]
    exact congrArg (map _) (ih (index + 1) (editor visit s).state)

omit hf in
theorem length_namesLeft (keys : List String) (s : σ) :
    (editor.namesLeft path spec keys s).1.length = keys.length := by
  induction keys generalizing s with
  | nil => rfl
  | cons key keys ih => exact congrArg (· + 1) (ih _)

/-- Editing keys writes the values one after the other under the names that are left. -/
theorem keys_eq_ofPairs {es : Entries Value} (hd : es.Distinct) (s : σ) :
    keys editor path spec es s =
      keep (Entries.ofPairs ((editor.namesLeft path spec es.keys s).1.zip (es.map Prod.snd)))
        (editor.namesLeft path spec es.keys s).2 := by
  unfold keys
  dsimp only
  rw [members_eq_namesLeft hf]
  generalize editor.namesLeft path spec es.keys s = left
  change (if left.1 = es.keys then keep es left.2
    else keep (Entries.ofPairs (left.1.zip (es.map Prod.snd))) left.2) = _
  by_cases hsame : left.1 = es.keys
  · have hzip : es.keys.zip (es.map Prod.snd) = es := by
      rw [Entries.keys, ← List.unzip_fst, ← List.unzip_snd, List.zip_unzip]
    have hself : Entries.ofPairs es = es := Entries.ofPairs_of_nodup hd
    rw [if_pos hsame, hsame, hzip, hself]
  · rw [if_neg hsame]

theorem keys_eq_zip {es : Entries Value} (hd : es.Distinct) {s : σ}
    (hn : (editor.namesLeft path spec es.keys s).1.Nodup) :
    keys editor path spec es s =
      keep ((editor.namesLeft path spec es.keys s).1.zip (es.map Prod.snd))
        (editor.namesLeft path spec es.keys s).2 := by
  have hl : (editor.namesLeft path spec es.keys s).1.length = es.length :=
    (length_namesLeft path spec es.keys s).trans (List.length_map _)
  rw [keys_eq_ofPairs hf path spec hd, (Entries.renamed_ofPairs hl).inPlace hn]

/-- **What editing the keys of an object leaves**: its entries under the names that the editor left.
An entry is lost if two of them have the same name, and only then. -/
theorem keys_renamed {es : Entries Value} (hd : es.Distinct) (s : σ) :
    (keys editor path spec es s).stop = none ∧
      (keys editor path spec es s).state = (editor.namesLeft path spec es.keys s).2 ∧
      es.Renamed (editor.namesLeft path spec es.keys s).1 (keys editor path spec es s).value := by
  have hl : (editor.namesLeft path spec es.keys s).1.length = es.length :=
    (length_namesLeft path spec es.keys s).trans (List.length_map _)
  rw [keys_eq_ofPairs hf path spec hd]
  exact ⟨rfl, rfl, Entries.renamed_ofPairs hl⟩

end Keys

/-- The editor that has Eve and Ada change places and makes a guest of everyone else, and counts. -/
def seat : Editor Nat Empty
  | ⟨_, _, _, .string "eve"⟩, n => ⟨.string "ada", n + 1, none⟩
  | ⟨_, _, _, .string "ada"⟩, n => ⟨.string "eve", n + 1, none⟩
  | _, n => ⟨.string "guest", n + 1, none⟩

theorem seat_error (visit : Visit) (n : Nat) : (seat visit n).error = none := by
  unfold seat
  split <;> rfl

/-- Four people at a table. -/
def table : Entries Value :=
  [("eve", .bool true), ("bob", .bool false), ("ada", .null), ("dan", .string "late")]

theorem keys_renamed_table : (∀ visit n, (seat visit n).error = none) ∧ table.Distinct ∧
    (keys seat "table" (.terminal (.scalar .name) .plain) table 0).stop = none ∧
    (keys seat "table" (.terminal (.scalar .name) .plain) table 0).state = 4 ∧
    table.Renamed ["ada", "guest", "eve", "guest"]
      (keys seat "table" (.terminal (.scalar .name) .plain) table 0).value :=
  have hd : table.Distinct := by decide
  ⟨seat_error, hd, keys_renamed seat_error "table" (.terminal (.scalar .name) .plain) hd 0⟩

/-- Bob is lost where Dan is a guest as well. -/
theorem not_keys_kept : ¬ ∀ editor : Editor Nat Empty, (∀ visit n, (editor visit n).error = none) →
    ∀ path spec (es : Entries Value) n, es.Distinct →
      (keys editor path spec es n).value =
        (editor.namesLeft path spec es.keys n).1.zip (es.map Prod.snd) := by
  intro h
  have hx := congrArg List.length
    (h seat seat_error "table" (.terminal (.scalar .name) .plain) table 0 (by decide))
  exact absurd hx (by decide)

end Edit

end ScriptSchema
