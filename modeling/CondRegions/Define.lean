import CondRegions.Diagnostic

/-!
# Definitions on the command line

`parseDefine` reads one definition and reports a text without a key.
-/

namespace CondRegions

/-- The key and the value of a definition `KEY` or `KEY=VALUE`. -/
def parseDefine (text : String) : Except Diagnostic (String × Value) :=
  match Definitions.parseDefine? text with
  | some entry => .ok entry
  | none => .error (.unplaced "config" (.invalidDefinition text))

end CondRegions
