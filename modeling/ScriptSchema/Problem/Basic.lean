/-!
# Problems

What can be wrong with a value, each with the words for it. Nearly all problems name the field in
question and say what it should be like; the rest have a form of their own.

* `Demand`: what a value fails to be;
* `Problem`, `Problem.message`.
-/

namespace ScriptSchema

/-- What a value should be. -/
inductive Demand where
  | aString
  | notBlank
  | anEmail
  | simple
  | anInteger
  | aNumber
  | trueOrFalse
  | hexColor
  | amountAndUnit
  | signedAmountAndUnit
  | clockTime
  | letterFirst
  | nameCharacters
  | url
  | twoNumbers
  | inDegrees
  | attributeCharacters
  | outerQuotes
  | lookupCharacters
  /-- Rid of these faults. -/
  | validLocation (faults : List String)
  | anArray
  | anObject
  | oneOf (options : List String)
  | inCollection (collection : String)
  | memberOf (kind : String)

/-- How a demand reads. -/
def Demand.text : Demand → String
  | aString => "should be a string."
  | notBlank => "should not be blank."
  | anEmail => "should be a valid email."
  | simple => "should be a string, number or boolean."
  | anInteger => "should be an integer."
  | aNumber => "should be a number."
  | trueOrFalse => "should be true or false."
  | hexColor => "should be a hex color."
  | amountAndUnit => "should be a number with \"h\", \"m\", or \"s\"."
  | signedAmountAndUnit => "should be a number suffixed by \"h/m/s\"."
  | clockTime => "must be valid."
  | letterFirst => "should start with a letter."
  | nameCharacters => "should be alphanumeric with dashes or underscores."
  | url => "must be a URL."
  | twoNumbers => "should be an array of two numbers."
  | inDegrees => "should be between -180 and 180."
  | attributeCharacters => "should be alphanumeric with underscores."
  | outerQuotes => "should only have quotes at the beginning and end."
  | lookupCharacters => "should be alphanumeric with underscores, dashes and periods."
  | validLocation faults => "must be valid: " ++ ", ".intercalate faults ++ "."
  | anArray => "should be an array."
  | anObject => "should be an object."
  | oneOf options => "is not one of " ++ ", ".intercalate (options.map ("\"" ++ · ++ "\"")) ++ "."
  | inCollection collection => "is not in collection \"" ++ collection ++ "\"."
  | memberOf kind => "should be a member of " ++ kind ++ "."

/-- How the value itself is shown between the field's name and the demand. -/
inductive Shown where
  | nothing
  /-- In brackets. -/
  | plain (text : String)
  /-- In quotes and brackets. -/
  | quoted (text : String)

/-- The text of what is shown. -/
def Shown.text : Shown → String
  | nothing => ""
  | plain text => " (" ++ text ++ ")"
  | quoted text => " (\"" ++ text ++ "\")"

/-- Something that is wrong with a value. -/
inductive Problem where
  /-- A field that must be there is not. -/
  | absent (name : String)
  /-- Fields are asked of a value that is not an object. -/
  | noFields
  /-- A field that is not declared. -/
  | unexpected (name : String) (declared : List String)
  /-- A value of the kind `label` does not meet a demand. -/
  | unfit (label name : String) (shown : Shown) (demand : Demand)
  /-- A component's tag is not a string. -/
  | variantNotString (name key : String)
  /-- A component's tag names no variant. -/
  | unknownVariant (name key variant : String) (known : List String)
  /-- A problem that a hook found. -/
  | other (text : String)

/-- How a problem reads. -/
def Problem.message : Problem → String
  | absent name => s!"Required param \"{name}\" not present."
  | noFields => "Parameters should be an object."
  | unexpected name declared =>
    s!"Unexpected param \"{name}\" (expected one of: " ++ ", ".intercalate declared ++ ")."
  | unfit label name shown demand =>
    s!"{label} param \"{name}\"" ++ shown.text ++ " " ++ demand.text
  | variantNotString name key =>
    s!"Component param \"{name}\" property \"{key}\" should be a string."
  | unknownVariant name key variant known =>
    s!"Component param \"{name}\" property \"{key}\" (\"{variant}\") should be one of: " ++
      ", ".intercalate known ++ "."
  | other text => text

end ScriptSchema
