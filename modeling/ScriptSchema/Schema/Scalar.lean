/-!
# Kinds of scalars

The formats of the values that have no parts in a schema, with the texts that describe them. A
coordinate pair and a location count as scalars, although they are an array and an object.

* `Scalar`, `Scalar.key`, `Scalar.ofKey?`;
* `Scalar.label`, as messages begin, and `Scalar.help`, for authors.
-/

namespace ScriptSchema

/-- The format of a scalar. -/
inductive Scalar where
  | string
  | markdown
  | email
  | simpleValue
  | integer
  | number
  | boolean
  | color
  | duration
  | timeOffset
  | timeShorthand
  | name
  | media
  | coords
  | simpleAttribute
  | lookupable
  | location
deriving DecidableEq

namespace Scalar

/-- All formats. -/
def all : List Scalar :=
  [string, markdown, email, simpleValue, integer, number, boolean, color, duration, timeOffset,
    timeShorthand, name, media, coords, simpleAttribute, lookupable, location]

/-- The name of a format in a description of a schema. -/
def key : Scalar → String
  | string => "string"
  | markdown => "markdown"
  | email => "email"
  | simpleValue => "simpleValue"
  | integer => "integer"
  | number => "number"
  | boolean => "boolean"
  | color => "color"
  | duration => "duration"
  | timeOffset => "timeOffset"
  | timeShorthand => "timeShorthand"
  | name => "name"
  | media => "media"
  | coords => "coords"
  | simpleAttribute => "simpleAttribute"
  | lookupable => "lookupable"
  | location => "location"

/-- The format of that name. -/
def ofKey? (k : String) : Option Scalar := all.find? fun s => s.key == k

/-- How messages about a format begin. -/
def label : Scalar → String
  | string => "String"
  | markdown => "Markdown"
  | email => "Email"
  | simpleValue => "Simple"
  | integer => "Integer"
  | number => "Number"
  | boolean => "Boolean"
  | color => "Color"
  | duration => "Duration"
  | timeOffset => "Time offset"
  | timeShorthand => "Time shorthand"
  | name => "Name"
  | media => "Media"
  | coords => "Coords"
  | simpleAttribute => "Simple attribute"
  | lookupable => "Lookupable"
  | location => "Location"

/-- A description for authors. -/
def help : Scalar → String
  | string => "Arbitrary text, usually for display to a participant."
  | markdown => "Text styled with markdown."
  | email => "An email address."
  | simpleValue => "A string, number, or true or false."
  | integer => "A simple integer value: 0, 100, -50, etc."
  | number => "An integer or number with a decimal."
  | boolean => "A simple true or false value."
  | color => "A color, in hexadecimal format (#FFFFFF)."
  | duration => "A positive duration such as 10s, 5m or 1.5h."
  | timeOffset => "An offset of time as number and unit, e.g. 10s, 3.5h or -40m."
  | timeShorthand =>
    "A clock time relative to the start of the experience, e.g. 3:00pm or +1d 4:15pm."
  | name => "A reference to the name of an element in the script."
  | media => "Uploaded media: an image, video, or audio clip URL."
  | coords => "Latitude/longitude coordinates."
  | simpleAttribute => "A variable name: letters, numbers and underscores."
  | lookupable => "A variable lookup, quoted text, or a literal value."
  | location => "A geocodable location with coordinates."

theorem ofKey?_key (s : Scalar) : ofKey? s.key = some s := by cases s <;> rfl

end Scalar

end ScriptSchema
