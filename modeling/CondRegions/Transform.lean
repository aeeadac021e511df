import CondRegions.Region.Resolve
import CondRegions.Region.Substitute

/-!
# Transforming a source

A source is transformed in three passes, one for each comment style, each on the text that the pass
before leaves. A pass whose markers do not pair up leaves its text as it was and reports why; the
later passes run all the same.

* `applyFamily` — one pass;
* `transform` — all passes;
* `inspect` — what each pass resolves, on the very texts that `transform` sees.
-/

namespace CondRegions

/-! ### One pass -/

/-- A text after a pass, with what the pass reported. -/
structure PassOutput where
  text : List Char
  diagnostics : List Diagnostic
deriving DecidableEq, Repr

/-- **One pass.** The regions of one style are resolved and substituted. On an error the text stays
and the error is the only diagnostic. -/
def applyFamily (family : Family) (text : List Char) (defs : Definitions) (path : String) :
    PassOutput :=
  let ms := locate family text
  if ms.isEmpty then ⟨text, []⟩
  else match resolve family ms defs ⟨path, String.ofList text⟩ with
    | .ok resolution => ⟨substitute text resolution.regions, resolution.diagnostics⟩
    | .error e => ⟨text, [e]⟩

/-! ### All passes -/

/-- The passes of the given styles, one after the other. -/
def applyFamilies (families : List Family) (text : List Char) (defs : Definitions)
    (path : String) : PassOutput :=
  families.foldl (fun out family =>
    let next := applyFamily family out.text defs path
    ⟨next.text, out.diagnostics ++ next.diagnostics⟩) ⟨text, []⟩

/-- A transformed source. -/
structure TransformOutput where
  code : String
  diagnostics : List Diagnostic
  /-- Whether the code differs from the source. -/
  changed : Bool
deriving DecidableEq, Repr

/-- **Transforming.** All passes, in pass order. -/
def transform (source path : String) (defs : Definitions) : TransformOutput :=
  let out := applyFamilies Family.passOrder source.toList defs path
  let code := String.ofList out.text
  { code, diagnostics := out.diagnostics, changed := code != source }

/-! ### Inspection -/

/-- What one pass resolves. -/
structure FamilyReport where
  family : Family
  /-- The text that the pass runs on. -/
  text : List Char
  regions : List Region
  diagnostics : List Diagnostic
deriving DecidableEq, Repr

/-- What a pass resolves in a text. -/
def reportFamily (family : Family) (text : List Char) (defs : Definitions) (path : String) :
    FamilyReport :=
  match resolve family (locate family text) defs ⟨path, String.ofList text⟩ with
  | .ok resolution => ⟨family, text, resolution.regions, resolution.diagnostics⟩
  | .error e => ⟨family, text, [], [e]⟩

/-- What the passes of the given styles resolve, each on the text that the one before leaves. -/
def inspectFamilies (text : List Char) (defs : Definitions) (path : String) :
    List Family → List FamilyReport
  | [] => []
  | family :: families =>
    let report := reportFamily family text defs path
    report :: inspectFamilies (substitute text report.regions) defs path families

/-- **Inspecting.** What all passes resolve, in pass order. -/
def inspect (source path : String) (defs : Definitions) : List FamilyReport :=
  inspectFamilies source.toList defs path Family.passOrder

end CondRegions
