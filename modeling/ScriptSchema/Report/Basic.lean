/-!
# Reports

What is wrong with a script, issue by issue, and how that reads in a sentence.

* `Issue`, `Issue.text`;
* `Report`, `Report.ofIssues`, `Report.collections`.
-/

namespace ScriptSchema

/-- One thing that is wrong with a script. -/
structure Issue where
  /-- The resource, or the collection itself. -/
  path : String
  collection : String
  message : String
deriving DecidableEq

/-- How an issue reads on its own. -/
def Issue.text (i : Issue) : String := i.path ++ ": " ++ i.message

/-- All that is wrong with a script. -/
structure Report where
  message : String
  issues : List Issue
deriving DecidableEq

/-- The collections that issues are about, each once, in the order of their first issue. -/
def Issue.collections (issues : List Issue) : List String :=
  (issues.map Issue.collection).eraseDups

namespace Report

/-- The collections that a report is about. -/
def collections (r : Report) : List String := Issue.collections r.issues

/-- How a report counts its issues. -/
def countText (n : Nat) : String :=
  if n = 1 then "There was 1 error" else s!"There were {n} errors"

/-- The report of some issues, which counts them and names their collections. -/
def ofIssues (issues : List Issue) : Report :=
  ⟨countText issues.length ++ " validating the following collections: " ++
    ", ".intercalate (Issue.collections issues) ++ ".", issues⟩

end Report

end ScriptSchema
