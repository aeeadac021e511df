import CondRegions.FinMap
import CondRegions.Value

/-!
# Definitions

The names that conditions can read, with their values. Layers of definitions are laid over each
other with `FinMap.merge`.

Not every key is readable: `Definitions.lookup` answers only for keys of identifier shape. A key
such as `2` may be present, but `2` in a condition is a number.
-/

namespace CondRegions

/-- **Definitions.** A value for every key that is defined. -/
abbrev Definitions := FinMap String Value

namespace Definitions

/-! ### Keys that conditions can read -/

/-- Whether a character may open a readable key. -/
def isKeyStart (c : Char) : Bool :=
  c.isAlpha || c == '_'

/-- Whether a character may stand inside a readable key. -/
def isKeyPart (c : Char) : Bool :=
  c.isAlphanum || c == '_'

/-- **Readable keys.** A letter or underscore, then letters, digits and underscores, all ASCII. -/
def eligible (key : String) : Bool :=
  match key.toList with
  | [] => false
  | c :: cs => isKeyStart c && cs.all isKeyPart

/-- The value of a name in a condition. -/
def lookup (d : Definitions) (name : String) : Value :=
  if eligible name then (d.get? name).getD .undefined else .undefined

/-! ### Definitions on the command line -/

/-- **One definition.** `KEY=VALUE` sets the key to the literal, and a bare `KEY` to `true`. The key
is trimmed and must not be empty; the value is taken as it stands. -/
def parseDefine? (text : String) : Option (String × Value) :=
  let cs := text.toList
  let key := String.ofList (Text.trim (cs.takeWhile (· != '=')))
  let value :=
    match cs.dropWhile (· != '=') with
    | [] => Value.bool true
    | _ :: rest => Value.ofLiteral (String.ofList rest)
  if key = "" then none else some (key, value)

end Definitions

end CondRegions
