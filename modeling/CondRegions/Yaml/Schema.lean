import CondRegions.Yaml.Alias

/-!
# The core schema of YAML

A plain scalar is null, a truth value, an integer or a number if it looks like one, and a string
otherwise; quoted scalars are strings, and a tag can say what a scalar has to be. Here nodes become
JSON values. Infinity and not-a-number have no JSON value and become null; an integer of more than
64 bits has none either, and is refused up to 128 bits. Beyond them a plain scalar is a number.
-/

namespace CondRegions.Yaml

/-- Whether a scalar spells null. -/
def isNull (text : String) : Bool :=
  text == "" || text == "null" || text == "Null" || text == "NULL" || text == "~"

/-- The truth value that a scalar spells. -/
def readBool? (text : String) : Option Bool :=
  if text == "true" || text == "True" || text == "TRUE" then some true
  else if text == "false" || text == "False" || text == "FALSE" then some false
  else none

/-- The value of a digit in a base up to 16. -/
def digit? (base : Nat) (c : Char) : Option Nat :=
  (Json.hexDigit? c).filter (· < base)

/-- The number written in digits of a base; there is at least one. -/
def readDigits? (base : Nat) (cs : List Char) : Option Nat :=
  if cs.isEmpty then none else cs.foldlM (fun n c => (digit? base c).map (base * n + ·)) 0

/-- Whether digits with a leading zero are meant as a string, a sign in front of them left out. -/
def hasLeadingZero (cs : List Char) : Bool :=
  let digits := match cs with
    | '-' :: rest | '+' :: rest => rest
    | rest => rest
  1 < digits.length && digits.head? == some '0' && digits.all Number.isDigit

/-- An unsigned integer: decimal, or in base 16, 8 or 2 behind its mark. -/
def readNat? : List Char → Option Nat
  | '0' :: 'x' :: cs => readDigits? 16 cs
  | '0' :: 'o' :: cs => readDigits? 8 cs
  | '0' :: 'b' :: cs => readDigits? 2 cs
  | cs => readDigits? 10 cs

/-- The integer that a scalar spells. -/
def readInt? (text : String) : Option Int :=
  let cs := text.toList
  if hasLeadingZero cs then none
  else match cs with
    | '+' :: rest => (readNat? rest).map Int.ofNat
    | '-' :: rest => (readNat? rest).map fun n => -(n : Int)
    | rest => (readNat? rest).map Int.ofNat

/-- The finite number that a decimal spells; a sign must not be repeated. -/
def readFinite? (cs : List Char) : Option Number :=
  let body := match cs with
    | '+' :: rest => rest
    | rest => rest
  match cs, body with
  | '+' :: _, '+' :: _ | '+' :: _, '-' :: _ => none
  | _, body =>
    match Number.read? body with
    | some (.signed negative rank) =>
      if rank < Number.infinityRank then some (.signed negative rank) else none
    | _ => none

/-- The number that a scalar spells; the names of infinity and not-a-number begin with a point. -/
def readNumber? (text : String) : Option Number :=
  let unsigned := if text.startsWith "+" then (text.drop 1).toString else text
  if [".inf", ".Inf", ".INF"].contains unsigned then some (.signed false Number.infinityRank)
  else if ["-.inf", "-.Inf", "-.INF"].contains text then some (.signed true Number.infinityRank)
  else if [".nan", ".NaN", ".NAN"].contains text then some .nan
  else readFinite? text.toList

/-- Whether an integer has at most the given number of bits, one of them for its sign if it is
negative. -/
def hasBits (bits : Nat) (n : Int) : Bool :=
  -(Number.twoPow (bits - 1) : Int) ≤ n && n < (Number.twoPow bits : Int)

/-- The JSON value of an integer, which has at most 64 bits. -/
def integerJson? (n : Int) : Option Json :=
  if hasBits 64 n then some (.integer n) else none

/-- The JSON value of a plain scalar that spells an integer: beyond 128 bits it is a number, or a
string if it is not decimal. -/
def plainIntegerJson? (text : String) (n : Int) : Option Json :=
  if hasBits 128 n then integerJson? n
  else some (((readFinite? text.toList).map Json.number).getD (.string text))

/-- The JSON value of a number. -/
def numberJson : Number → Json
  | .nan => .null
  | .signed negative rank =>
    if rank < Number.infinityRank then .number (.signed negative rank) else .null

/-- The JSON value of a plain scalar. -/
def plainJson? (text : String) : Option Json :=
  if isNull text then some .null
  else match readBool? text with
    | some b => some (.bool b)
    | none =>
      match readInt? text with
      | some n => plainIntegerJson? text n
      | none =>
        if hasLeadingZero text.toList then some (.string text)
        else some (((readNumber? text).map numberJson).getD (.string text))

/-- Whether a tag is one of the application that has a name. Such tags are not understood. -/
def isForeignTag (tag : Option Tag) : Bool :=
  tag.any fun t => t.isLocal && t.isText

/-- The JSON value of a scalar. A tag of the core schema says what the scalar has to be, a local one
that is no text says nothing, and any other makes it a string, unless it is not understood. -/
def scalarJson? (tag : Option Tag) (style : Style) (text : String) : Option Json :=
  let untagged := if style == .plain then plainJson? text else some (.string text)
  match tag with
  | none => untagged
  | some t =>
    if isForeignTag tag then none
    else if t.isLocal then untagged
    else if t = .core "null" then if text != "" && isNull text then some .null else none
    else if t = .core "bool" then (readBool? text).map .bool
    else if t = .core "int" then (readInt? text).bind integerJson?
    else if t = .core "float" then (readNumber? text).map numberJson
    else some (.string text)

/-- How the keys of a mapping are read. -/
inductive KeyRule where
  /-- Every scalar is a key by its text. -/
  | anyScalar
  /-- Only strings are keys. -/
  | stringsOnly
deriving DecidableEq, Repr

/-- The key that a node stands for. -/
def keyText? (rule : KeyRule) : Node Empty → Option String
  | .scalar tag style text =>
    match rule with
    | .anyScalar => some text
    | .stringsOnly =>
      match scalarJson? tag style text with
      | some (.string s) => some s
      | _ => none
  | _ => none

mutual

/-- **JSON values.** The value that a node stands for. -/
def Node.toJson? (rule : KeyRule) : Node Empty → Option Json
  | .scalar tag style text => scalarJson? tag style text
  | .sequence tag items =>
    if isForeignTag tag then none else (itemsJson? rule items).map .array
  | .mapping tag entries =>
    if isForeignTag tag then none else (entriesJson? rule entries).map .object

/-- The values of several nodes. -/
def itemsJson? (rule : KeyRule) : List (Node Empty) → Option (List Json)
  | [] => some []
  | node :: nodes => do
    let item ← node.toJson? rule
    let items ← itemsJson? rule nodes
    return item :: items

/-- The keys and values of several entries. -/
def entriesJson? (rule : KeyRule) :
    List (Node Empty × Node Empty) → Option (List (String × Json))
  | [] => some []
  | (key, node) :: rest => do
    let k ← keyText? rule key
    let item ← node.toJson? rule
    let items ← entriesJson? rule rest
    return (k, item) :: items

end

end CondRegions.Yaml
