import CondRegions.Definitions
import CondRegions.Json.Reader
import CondRegions.Yaml.Schema

/-!
# Options files

An options file sets the include and exclude lists, the mode and definitions. Its `env` map and all
other keys are definitions, the `env` map on top. The file is JSON or YAML; the two differ in what
they take for a string and in how they read null.

* `Options.ofJson?`, `Options.ofYaml?` — the options that a document gives;
* `Options.definitions` — its definitions, in two layers.
-/

namespace CondRegions

/-- What an options file says. -/
structure Options where
  /-- The patterns of files to take. -/
  included : Option (List String)
  /-- The patterns of files to leave out. -/
  excluded : Option (List String)
  mode : Option String
  /-- The `env` map. -/
  env : List (String × Json)
  /-- All other keys. -/
  others : List (String × Json)

namespace Options

/-- The options of an empty file. -/
def empty : Options := ⟨none, none, none, [], []⟩

/-- **Definitions.** The other keys, and the `env` map on top of them. -/
def definitions (o : Options) : Definitions :=
  let layer (entries : List (String × Json)) : Definitions :=
    FinMap.ofList (entries.map fun (key, j) => (key, j.toValue))
  (layer o.others).merge (layer o.env)

/-- The keys with a meaning of their own. -/
def reservedKeys : List String := ["include", "exclude", "mode", "env"]

/-- Whether a key with a meaning of its own occurs more than once. -/
def hasRepeatedKey (keys : List String) : Bool :=
  reservedKeys.any fun key => 1 < keys.count key

/-! ### JSON -/

/-- A string. -/
def jsonString? : Json → Option String
  | .string s => some s
  | _ => none

/-- A list of strings, or null. -/
def jsonStrings? : Json → Option (Option (List String))
  | .null => some none
  | .array items => (items.mapM jsonString?).map some
  | _ => none

/-- The value that `read` finds for a key; it is none if the key is absent. -/
def optional {α β : Type} (entries : List (String × α)) (key : String)
    (read : α → Option (Option β)) : Option (Option β) :=
  match entries.lookup key with
  | some value => read value
  | none => some none

/-- The options that a JSON document gives. -/
def ofJson? (text : String) : Option Options :=
  match Json.parse? text with
  | some (.object entries) => do
    if hasRepeatedKey (entries.map Prod.fst) then none
    let env ← optional entries "env" fun j =>
      match j with
      | .object es => some (some es)
      | _ => none
    return {
      included := ← optional entries "include" jsonStrings?
      excluded := ← optional entries "exclude" jsonStrings?
      mode := ← optional entries "mode" fun j =>
        match j with
        | .null => some none
        | j => (jsonString? j).map some
      env := env.getD []
      others := entries.filter fun (key, _) => !reservedKeys.contains key }
  | _ => none

/-! ### YAML -/

/-- A node without anchors. -/
abbrev YamlNode := Yaml.Node Empty

/-- Whether a node says that a value is absent: a plain null does, and what has the tag of null
must. -/
def isAbsent? : YamlNode → Option Bool
  | .scalar none .plain text => some (Yaml.isNull text)
  | .scalar (some tag) .plain text =>
    if tag = .core "null" then if text != "" && Yaml.isNull text then some true else none
    else some false
  | _ => some false

/-- The value that `read` finds in a node, unless it is absent. -/
def unlessAbsent? {α : Type} (read : YamlNode → Option α) (node : YamlNode) :
    Option (Option α) := do
  if ← isAbsent? node then return none else return some (← read node)

/-- A scalar of any kind, by its text. -/
def nodeText? : YamlNode → Option String
  | .scalar _ _ text => some text
  | _ => none

/-- A list of scalars; nothing written stands for an empty one. -/
def nodeTexts? : YamlNode → Option (List String)
  | .sequence _ items => items.mapM nodeText?
  | .scalar _ .plain "" => some []
  | _ => none

/-- The entries of a mapping; nothing written stands for an empty one. -/
def nodeEntries? : YamlNode → Option (List (String × YamlNode))
  | .mapping _ entries => entries.mapM fun (key, value) => (nodeText? key).map (·, value)
  | .scalar _ .plain "" => some []
  | _ => none

/-- The values of entries as JSON. -/
def entriesToJson? (rule : Yaml.KeyRule) (entries : List (String × YamlNode)) :
    Option (List (String × Json)) :=
  entries.mapM fun (key, node) => (node.toJson? rule).map (key, ·)

/-- The options that a node gives. Only in the `env` map may inner mappings have keys that are no
strings. -/
def ofNode? (node : YamlNode) : Option Options := do
  let entries ← nodeEntries? node
  if hasRepeatedKey (entries.map Prod.fst) then none
  let env ← optional entries "env" fun value => (nodeEntries? value).map some
  return {
    included := ← optional entries "include" (unlessAbsent? nodeTexts?)
    excluded := ← optional entries "exclude" (unlessAbsent? nodeTexts?)
    mode := ← optional entries "mode" (unlessAbsent? nodeText?)
    env := ← entriesToJson? .anyScalar (env.getD [])
    others := ← entriesToJson? .stringsOnly
      (entries.filter fun (key, _) => !reservedKeys.contains key) }

/-- The options that a YAML document gives; a text without a document gives none. -/
def ofYaml? (text : String) : Option Options :=
  match Yaml.Node.ofText? text with
  | some (some node) => node.resolve?.bind ofNode?
  | some none => some empty
  | none => none

end Options

end CondRegions
