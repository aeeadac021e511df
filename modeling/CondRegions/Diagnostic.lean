import CondRegions.Condition.Parser
import CondRegions.Marker.Basic

/-!
# Diagnostics

Everything that can go wrong is a *cause*, and a diagnostic is a cause with its place: a named
source text, a span in it, and the phase of the work that noticed it. The wording of causes, labels
and help is kept here and nowhere else.
-/

namespace CondRegions

/-- A named text that diagnostics point into. -/
structure Source where
  name : String
  content : String
deriving DecidableEq, Repr

/-- The source of a diagnostic that points nowhere. -/
def Source.none : Source := ⟨"", ""⟩

/-- What went wrong. -/
inductive Cause where
  /-- A style has more markers of one sort than of the other. -/
  | imbalancedMarkers (family : Family) (path : String) (starts ends : Nat)
  /-- An end marker has no region to close. -/
  | strayEndMarker (family : Family) (path : String)
  /-- A start marker has no end. -/
  | unclosedRegion (family : Family) (path : String)
  /-- A condition cannot be parsed. -/
  | malformedCondition (expression reason : String)
  /-- A pattern of a file list cannot be used. -/
  | invalidGlob (pattern reason : String)
  /-- A file or directory cannot be used. -/
  | invalidPath (path : String)
  /-- An options file cannot be used. -/
  | invalidConfig (message : String)
  /-- A definition on the command line has no key. -/
  | invalidDefinition (text : String)
deriving DecidableEq, Repr

/-- The three groups of causes. -/
inductive Category where
  | marker
  | condition
  | config
deriving DecidableEq, Repr

/-- The name of a group. -/
def Category.name : Category → String
  | .marker => "Marker"
  | .condition => "Condition"
  | .config => "Config"

namespace Cause

/-- The group of a cause. -/
def category : Cause → Category
  | .imbalancedMarkers .. | .strayEndMarker .. | .unclosedRegion .. => .marker
  | .malformedCondition .. => .condition
  | .invalidGlob .. | .invalidPath .. | .invalidConfig .. | .invalidDefinition .. => .config

/-- The last part of a cause's code. -/
def suffix : Cause → String
  | .imbalancedMarkers .. => "imbalanced_markers"
  | .strayEndMarker .. => "stray_end_marker"
  | .unclosedRegion .. => "unclosed_region"
  | .malformedCondition .. => "malformed_condition"
  | .invalidGlob .. => "invalid_glob"
  | .invalidPath .. => "invalid_path"
  | .invalidConfig .. => "invalid_config"
  | .invalidDefinition .. => "invalid_definition"

/-- The wording of a cause. -/
def message : Cause → String
  | .imbalancedMarkers family path starts ends =>
    "imbalanced " ++ family.name ++ " markers in " ++ path ++ ": " ++ toString starts ++
      " start marker(s), " ++ toString ends ++ " end marker(s)"
  | .strayEndMarker family path =>
    family.name ++ " end marker in " ++ path ++ " does not close any open region"
  | .unclosedRegion family path => family.name ++ " region in " ++ path ++ " is never closed"
  | .malformedCondition expression reason =>
    "malformed condition `" ++ expression ++ "`: " ++ reason
  | .invalidGlob pattern reason => "invalid glob pattern `" ++ pattern ++ "`: " ++ reason
  | .invalidPath path => "invalid path '" ++ path ++ "'"
  | .invalidConfig message => "invalid configuration: " ++ message
  | .invalidDefinition text =>
    "invalid definition `" ++ text ++ "`, expected KEY or KEY=VALUE"

/-- Advice that goes with a cause. -/
def help? (cause : Cause) : Option String :=
  match cause.category with
  | .marker =>
    some ("every #ifdef/#ifndef needs exactly one matching #endif in the same comment " ++
      "style; this comment style was left untouched")
  | .condition => some "the region was excluded; fix the condition to include it"
  | .config => none

/-- What is written at the place that a diagnostic points to. -/
def label : Cause → String
  | .imbalancedMarkers .. => "first marker of this style"
  | .strayEndMarker .. => "nothing to close here"
  | .unclosedRegion .. => "opened here"
  | .malformedCondition .. => "syntax error"
  | .invalidGlob .. => "invalid glob"
  | .invalidPath .. => "invalid path"
  | .invalidConfig .. => "invalid configuration"
  | .invalidDefinition .. => "invalid definition"

end Cause

/-- A cause with its place. -/
structure Diagnostic where
  cause : Cause
  /-- The part of the work that noticed it. -/
  phase : String
  source : Source
  span : Span
deriving DecidableEq, Repr

namespace Diagnostic

/-- A diagnostic that points nowhere. -/
def unplaced (phase : String) (cause : Cause) : Diagnostic :=
  ⟨cause, phase, .none, ⟨0, 0⟩⟩

/-- The code of a diagnostic: its phase and its cause. -/
def code (d : Diagnostic) : String :=
  "region_ifdef::" ++ d.phase ++ "::" ++ d.cause.suffix

/-- The wording of a diagnostic. -/
def message (d : Diagnostic) : String :=
  d.cause.message

/-- The label and its place; there is none in an empty source. -/
def label? (d : Diagnostic) : Option (String × Span) :=
  if d.source.content = "" then none else some (d.cause.label, d.span)

/-- A diagnostic written out: its code, its wording, its place if it has one, and advice. -/
def report (d : Diagnostic) : String :=
  let place := match d.label? with
    | some (label, span) =>
      "  at " ++ d.source.name ++ ", byte " ++ toString span.start ++ ": " ++ label ++ "\n"
    | none => ""
  let help := match d.cause.help? with
    | some help => "  help: " ++ help ++ "\n"
    | none => ""
  d.code ++ "\n  " ++ d.message ++ "\n" ++ place ++ help

/-- The same diagnostic in a larger source, in which the old one starts at `offset`. -/
def within (d : Diagnostic) (source : Source) (offset : Nat) : Diagnostic :=
  { d with source, span := d.span.shift offset }

/-- The diagnostic of a malformed condition, placed in the condition's own text. -/
def ofSyntaxError (name expression : String) (e : SyntaxError) : Diagnostic :=
  ⟨.malformedCondition expression e.reason.message, "condition", ⟨name, expression⟩, e.span⟩

end Diagnostic

end CondRegions
