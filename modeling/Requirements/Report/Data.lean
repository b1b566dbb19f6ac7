import Requirements.Json.Printer
import Requirements.Report
import Requirements.Resolution.Data

/-!
# Reports as JSON

A report is an object that tells where it comes from and when it was made, and
then either the picked releases with the skipped packages, or the constraints.
-/

namespace Requirements.Report

/-- The members of a report that its finding decides. -/
def findingMembers : Finding → List (String × Json)
  | .resolved r =>
      [("resolution", r.entries.toJson Picked.toJson),
        ("skipped", .array (r.skipped.map Skipped.toJson))]
  | .restricted t => [("constraints", t.toJson .string)]

def toJson (r : Report) (time : String) : Json :=
  .object <|
    [("ecosystem", .string r.ecosystem.identifier), ("source", .string r.source),
      ("resolved_at", .string time)] ++ findingMembers r.finding

/-- The JSON text of a report, with a line break at its end. -/
def jsonText (r : Report) (time : String) : String :=
  (r.toJson time).pretty ++ "\n"

end Requirements.Report
