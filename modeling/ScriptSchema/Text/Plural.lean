/-!
# Plurals of English nouns

A collection is named by the plural of the type of its resources: `scene` and `scenes`, `inbox`
and `inboxes`, `entry` and `entries`. The two directions are lists of endings; they are not inverse
to each other on every word.

* `pluralOf`, `singularOf` on words;
* `Plural.ofReversed`, `Plural.toSingularReversed`: the endings, read from the last character.
-/

namespace ScriptSchema

namespace Plural

/-- A word, read backwards, that takes `es` and not `s`: it ends in `x`, `ch`, `sh` or `ss`. -/
def isSibilant : List Char → Bool
  | 'x' :: _ => true
  | 'h' :: 'c' :: _ => true
  | 'h' :: 's' :: _ => true
  | 's' :: 's' :: _ => true
  | _ => false

/-- A word, read backwards, that ends in a vowel letter. -/
def endsInVowel : List Char → Bool
  | c :: _ => ['a', 'e', 'i', 'o', 'u'].contains c
  | [] => false

/-- The plural, all words read backwards: `y` after anything but a vowel becomes `ies`. -/
def ofReversed : List Char → List Char
  | 'y' :: stem => if endsInVowel stem then 's' :: 'y' :: stem else 's' :: 'e' :: 'i' :: stem
  | word => if isSibilant word then 's' :: 'e' :: word else 's' :: word

/-- The singular, all words read backwards. A word that has no plural ending is its own singular,
and so is `s`. -/
def toSingularReversed : List Char → List Char
  | 's' :: 'e' :: 'i' :: stem => 'y' :: stem
  | 's' :: 'e' :: stem => if isSibilant stem then stem else 'e' :: stem
  | 's' :: c :: stem => c :: stem
  | word => word

end Plural

/-- The plural of a noun. -/
def pluralOf (noun : String) : String :=
  .ofList (Plural.ofReversed noun.toList.reverse).reverse

/-- The noun that a plural belongs to. -/
def singularOf (plural : String) : String :=
  .ofList (Plural.toSingularReversed plural.toList.reverse).reverse

theorem toList_pluralOf (noun : String) :
    (pluralOf noun).toList = (Plural.ofReversed noun.toList.reverse).reverse :=
  String.toList_ofList

theorem toList_singularOf (plural : String) :
    (singularOf plural).toList = (Plural.toSingularReversed plural.toList.reverse).reverse :=
  String.toList_ofList

end ScriptSchema
