import CondRegions.Json.Basic
import CondRegions.Transform

/-!
# Reports

What the commands print about regions and values: a listing with one line for a region, the same as
JSON, and the value and outcome of a condition.
-/

namespace CondRegions

/-! ### Regions -/

/-- One line of a listing. -/
def Region.line (text : List Char) (r : Region) : String :=
  let (first, last) := r.span.lineRange text
  String.ofList (List.replicate (2 * (r.level + 1)) ' ') ++ r.kind.text ++ " " ++ r.condition ++
    "  lines " ++ toString first ++ "-" ++ toString last ++ "  " ++
    (if r.result then "kept" else "removed") ++ "\n"

/-- The regions of one style under its name; a style without regions is left out. -/
def FamilyReport.listing (report : FamilyReport) : String :=
  if report.regions.isEmpty then ""
  else report.family.name ++ "\n" ++ String.join (report.regions.map (Region.line report.text))

/-- **Listing.** The regions of all styles. -/
def reportsListing (reports : List FamilyReport) : String :=
  String.join (reports.map FamilyReport.listing)

/-- A region as JSON. -/
def Region.toJson (text : List Char) (r : Region) : Json :=
  let (first, last) := r.span.lineRange text
  .object [
    ("kind", .string r.kind.directive),
    ("condition", .string r.condition),
    ("level", .integer r.level),
    ("result", .bool r.result),
    ("lines", .array [.integer first, .integer last])]

/-- What one pass resolves, as JSON. -/
def FamilyReport.toJson (report : FamilyReport) : Json :=
  .object [
    ("family", .string report.family.name),
    ("regions", .array (report.regions.map (Region.toJson report.text))),
    ("diagnostics", .array (report.diagnostics.map fun d => .string d.message))]

/-- What all passes resolve, as JSON. -/
def reportsToJson (reports : List FamilyReport) : Json :=
  .array (reports.map FamilyReport.toJson)

/-! ### Conditions -/

/-- The value and the outcome of a condition. -/
def evaluationText (value : Value) (result : Bool) : String :=
  "value:  " ++ value.quotedText ++ " (" ++ value.typeName ++ ")\n" ++
    "result: " ++ (if result then "true" else "false") ++ "\n"

end CondRegions
