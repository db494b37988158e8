import ScriptSchema.Number.Decimal
import ScriptSchema.Text.Pattern

/-!
# Times in words

The three ways to write a time: a clock time, which may lie some days ahead (`3:00pm`,
`+1d 4:15pm`), an offset (`10s`, `-3.5h`) and a duration (`5m`).

* `isClockTime`, `isOffset`;
* `durationSeconds`, `offsetSeconds`: how long it is.
-/

namespace ScriptSchema

namespace Clock

/-- Some days ahead: `+`, a digit, `d` in either case and a blank. -/
def dayShift : Pattern :=
  .char '+' ++ .one .digit ++ .one (.ofChars ['d', 'D']) ++ .one .blank

/-- An hour from 0 to 12; two digits only from 10 on. -/
def hour : Pattern := (Pattern.one .digit).or (.char '1' ++ .one (.ofRanges [('0', '2')]))

/-- A minute from 00 to 59. -/
def minute : Pattern := .one (.ofRanges [('0', '5')]) ++ .one .digit

/-- `a` or `p`, with or without an `m`, in either case. -/
def halfDay : Pattern := .one (.ofChars ['a', 'p', 'A', 'P']) ++ .atMostOne (.ofChars ['m', 'M'])

/-- A clock time. -/
def time : Pattern := dayShift.maybe ++ hour ++ .char ':' ++ minute ++ halfDay

/-- An offset: a number, which may be negative, and a unit. -/
def offset : Pattern :=
  .atMostOne (.ofChars ['-']) ++ .some .digit ++ (Pattern.char '.' ++ .some .digit).maybe ++
    .one (.ofChars ['h', 'm', 's'])

/-- The seconds of a unit. -/
def unitSeconds? : Char → Option Float
  | 's' => some 1
  | 'm' => some 60
  | 'h' => some 3600
  | _ => none

/-- The seconds of a duration, if the text is a positive number with a unit behind it. -/
def seconds? (cs : List Char) : Option Float := do
  let unit ← cs.getLast?.bind unitSeconds?
  let amount ← readFloat? cs.dropLast
  if 0 < amount then some (amount * unit) else none

end Clock

/-- The text is a clock time. -/
def isClockTime (s : String) : Bool := Clock.time.accepts s.toList

/-- The text is an offset. -/
def isOffset (s : String) : Bool := Clock.offset.accepts s.toList

/-- The seconds of a duration; zero for what is no positive duration. -/
def durationSeconds (s : String) : Float := (Clock.seconds? s.toList).getD 0

/-- The seconds of an offset: those of the duration behind a minus, negated, or of the duration. -/
def offsetSeconds (s : String) : Float :=
  match s.toList with
  | '-' :: cs => -(Clock.seconds? cs).getD 0
  | cs => (Clock.seconds? cs).getD 0

end ScriptSchema
