import CondRegions.Yaml.Token

/-!
# Documents of YAML

The tokens of a text are read by recursive descent into a tree of nodes. Anchors and aliases stay in
the tree by their names; `Node.resolve?` replaces them. A text holds at most one document here; an
empty one holds none.
-/

namespace CondRegions.Yaml

/-- A node of a document, with anchors of type `α`. A `Node Empty` has no anchors and no aliases. -/
inductive Node (α : Type) where
  | scalar (tag : Option Tag) (style : Style) (text : String)
  | sequence (tag : Option Tag) (items : List (Node α))
  | mapping (tag : Option Tag) (entries : List (Node α × Node α))
  /-- A node with an anchor. -/
  | anchored (anchor : α) (node : Node α)
  /-- The node with a given anchor once more. -/
  | alias (anchor : α)

instance {α : Type} : Inhabited (Node α) := ⟨.scalar none .plain ""⟩

/-- The node of a place where nothing is written. -/
def Node.empty {α : Type} : Node α := .scalar none .plain ""

/-- Something that was read, with the tokens left. -/
structure Parsed (β : Type) where
  value : β
  rest : List Token

namespace Parse

/-- Where a node stands. -/
inductive Context where
  /-- Inside a flow collection. -/
  | flow
  /-- An item of a block. -/
  | block
  /-- A key or value of a block, where the items of a sequence need not be indented. -/
  | blockEntry
deriving DecidableEq, Repr

/-- The anchor and the tag in front of a node. -/
structure Properties where
  anchor : Option String
  tag : Option Tag

/-- Whether nothing is written in front of a node. -/
def Properties.isEmpty (p : Properties) : Bool :=
  p.anchor.isNone && p.tag.isNone

/-- The anchor and the tag in front of a node, in either order. -/
def properties? (handles : Handles) : List Token → Option (Properties × List Token)
  | .anchor a :: .tag h t :: rest | .tag h t :: .anchor a :: rest =>
    (Tag.resolve? handles h t).map fun tag => (⟨some a, some tag⟩, rest)
  | .anchor a :: rest => some (⟨some a, none⟩, rest)
  | .tag h t :: rest => (Tag.resolve? handles h t).map fun tag => (⟨none, some tag⟩, rest)
  | rest => some (⟨none, none⟩, rest)

/-- The tag of a scalar that is written out: an exclamation mark alone says nothing about it. -/
def scalarTag (tag : Option Tag) : Option Tag :=
  tag.filter (· != .mark)

/-- Whether a token ends an entry of a block collection. -/
def endsBlockEntry : List Token → Bool
  | .key :: _ | .value :: _ | .blockEnd :: _ | [] => true
  | _ => false

/-- Whether a token ends an entry of a flow collection. -/
def endsFlowEntry : List Token → Bool
  | .flowEntry :: _ | .flowSequenceEnd :: _ | .flowMappingEnd :: _ | [] => true
  | _ => false

/-- Whether a token ends a key of a flow mapping. -/
def endsFlowKey : List Token → Bool
  | .value :: _ => true
  | ts => endsFlowEntry ts

/-- The tokens of the next entry of a flow collection: behind a comma, unless it is the first entry
or the collection ends. -/
def flowSeparated? (first : Bool) (ts : List Token) : Option (List Token) :=
  match ts with
  | .flowSequenceEnd :: _ | .flowMappingEnd :: _ => some ts
  | .flowEntry :: rest => if first then none else some rest
  | ts => if first then some ts else none

mutual

/-- A node. The last argument bounds the depth of the descent. -/
def node? (handles : Handles) (context : Context) (ts : List Token) :
    Nat → Option (Parsed (Node String))
  | 0 => none
  | n + 1 =>
    match ts with
    | .alias name :: rest => some ⟨.alias name, rest⟩
    | ts => do
      let (properties, rest) ← properties? handles ts
      let content ← content? handles context properties rest n
      return match properties.anchor with
        | some a => { content with value := .anchored a content.value }
        | none => content

/-- A node behind its properties. -/
def content? (handles : Handles) (context : Context) (properties : Properties) (ts : List Token) :
    Nat → Option (Parsed (Node String))
  | 0 => none
  | n + 1 =>
    match ts, context with
    | .scalar style text :: rest, _ => some ⟨.scalar (scalarTag properties.tag) style text, rest⟩
    | .flowSequenceStart :: rest, _ => do
      let items ← flowItems? handles true rest n
      return ⟨.sequence properties.tag items.value, items.rest⟩
    | .flowMappingStart :: rest, _ => do
      let entries ← flowEntries? handles true rest n
      return ⟨.mapping properties.tag entries.value, entries.rest⟩
    | .blockSequence :: rest, .block | .blockSequence :: rest, .blockEntry => do
      let items ← blockItems? handles rest n
      match items.rest with
      | .blockEnd :: rest => return ⟨.sequence properties.tag items.value, rest⟩
      | _ => none
    | .blockEntry :: rest, .blockEntry => do
      let items ← blockItems? handles (.blockEntry :: rest) n
      return ⟨.sequence properties.tag items.value, items.rest⟩
    | .blockMapping :: rest, .block | .blockMapping :: rest, .blockEntry => do
      let entries ← blockEntries? handles rest n
      return ⟨.mapping properties.tag entries.value, entries.rest⟩
    | ts, _ => if properties.isEmpty then none else some ⟨.scalar properties.tag .plain "", ts⟩

/-- The items of a block sequence, up to the first token that is no dash. -/
def blockItems? (handles : Handles) (ts : List Token) : Nat → Option (Parsed (List (Node String)))
  | 0 => none
  | n + 1 =>
    match ts with
    | .blockEntry :: rest => do
      let item ← blockItem? handles rest n
      let later ← blockItems? handles item.rest n
      return { later with value := item.value :: later.value }
    | ts => some ⟨[], ts⟩

/-- The item behind a dash. -/
def blockItem? (handles : Handles) (ts : List Token) : Nat → Option (Parsed (Node String))
  | 0 => none
  | n + 1 =>
    match ts with
    | .blockEntry :: _ => some ⟨.empty, ts⟩
    | ts => if endsBlockEntry ts then some ⟨.empty, ts⟩ else node? handles .block ts n

/-- The entries of a block mapping, up to its end. -/
def blockEntries? (handles : Handles) (ts : List Token) :
    Nat → Option (Parsed (List (Node String × Node String)))
  | 0 => none
  | n + 1 =>
    match ts with
    | .blockEnd :: rest => some ⟨[], rest⟩
    | .key :: rest => do
      let key ← blockPart? handles rest n
      let value ← blockValue? handles key.rest n
      let later ← blockEntries? handles value.rest n
      return { later with value := (key.value, value.value) :: later.value }
    | _ => none

/-- A key or a value of a block mapping. -/
def blockPart? (handles : Handles) (ts : List Token) : Nat → Option (Parsed (Node String))
  | 0 => none
  | n + 1 => if endsBlockEntry ts then some ⟨.empty, ts⟩ else node? handles .blockEntry ts n

/-- The value of an entry of a block mapping, empty if there is no colon. -/
def blockValue? (handles : Handles) (ts : List Token) : Nat → Option (Parsed (Node String))
  | 0 => none
  | n + 1 =>
    match ts with
    | .value :: rest => blockPart? handles rest n
    | ts => some ⟨.empty, ts⟩

/-- The items of a flow sequence, up to its end. An item may be a single entry of a mapping. -/
def flowItems? (handles : Handles) (first : Bool) (ts : List Token) :
    Nat → Option (Parsed (List (Node String)))
  | 0 => none
  | n + 1 =>
    match flowSeparated? first ts with
    | none => none
    | some (.flowSequenceEnd :: rest) => some ⟨[], rest⟩
    | some (.key :: rest) => do
      let key ← flowItemKey? handles rest n
      let value ← flowValue? handles key.rest n
      let later ← flowItems? handles false value.rest n
      return { later with value := .mapping none [(key.value, value.value)] :: later.value }
    | some ts => do
      let item ← node? handles .flow ts n
      let later ← flowItems? handles false item.rest n
      return { later with value := item.value :: later.value }

/-- The entries of a flow mapping, up to its end. -/
def flowEntries? (handles : Handles) (first : Bool) (ts : List Token) :
    Nat → Option (Parsed (List (Node String × Node String)))
  | 0 => none
  | n + 1 =>
    match flowSeparated? first ts with
    | none => none
    | some (.flowMappingEnd :: rest) => some ⟨[], rest⟩
    | some (.key :: rest) => do
      let key ← flowPart? handles endsFlowKey rest n
      let value ← flowValue? handles key.rest n
      let later ← flowEntries? handles false value.rest n
      return { later with value := (key.value, value.value) :: later.value }
    | some ts => do
      let key ← node? handles .flow ts n
      let later ← flowEntries? handles false key.rest n
      return { later with value := (key.value, .empty) :: later.value }

/-- The key of an item that is a single entry of a mapping. Where no key is written, the token that
shows it is taken as well, be it a colon, a comma or the bracket at the end. -/
def flowItemKey? (handles : Handles) (ts : List Token) : Nat → Option (Parsed (Node String))
  | 0 => none
  | n + 1 =>
    match ts with
    | .value :: rest | .flowEntry :: rest | .flowSequenceEnd :: rest => some ⟨.empty, rest⟩
    | ts => node? handles .flow ts n

/-- A part of an entry of a flow collection, empty where `ends` holds. -/
def flowPart? (handles : Handles) (ends : List Token → Bool) (ts : List Token) :
    Nat → Option (Parsed (Node String))
  | 0 => none
  | n + 1 => if ends ts then some ⟨.empty, ts⟩ else node? handles .flow ts n

/-- The value of an entry of a flow collection, empty if there is no colon. -/
def flowValue? (handles : Handles) (ts : List Token) : Nat → Option (Parsed (Node String))
  | 0 => none
  | n + 1 =>
    match ts with
    | .value :: rest => flowPart? handles endsFlowEntry rest n
    | ts => some ⟨.empty, ts⟩

end

/-- Whether nothing of a document's content comes next. -/
def atDocumentEdge : List Token → Bool
  | [] | .documentStart :: _ | .documentEnd :: _ | .directive _ :: _ => true
  | _ => false

/-- The directives at the start of a text, and what follows. -/
def takeDirectives : List Token → List Directive × List Token
  | .directive d :: ts => let (ds, rest) := takeDirectives ts; (d :: ds, rest)
  | ts => ([], ts)

/-- The node of a document. A mark must come first if there are directives, and behind a mark there
need be no content. -/
def root? (ts : List Token) : Option (Parsed (Node String)) := do
  let (directives, body) := takeDirectives ts
  let handles ← Handles.ofDirectives? false [] directives
  match body with
  | .documentStart :: content =>
    if atDocumentEdge content then some ⟨.empty, content⟩
    else node? handles .block content (4 * content.length + 8)
  | body => if directives.isEmpty then node? handles .block body (4 * body.length + 8) else none

/-- The only document of a text; the outer option is empty if the text is malformed or holds a
second document. -/
def document? (ts : List Token) : Option (Option (Node String)) := do
  if ts.isEmpty then return none
  let root ← root? ts
  if (root.rest.dropWhile (· == .documentEnd)).isEmpty then return some root.value else none

end Parse

/-- **Documents.** The only document of a text, if it has one. -/
def Node.ofText? (text : String) : Option (Option (Node String)) := do
  Parse.document? (← Token.ofText? text)

end CondRegions.Yaml
