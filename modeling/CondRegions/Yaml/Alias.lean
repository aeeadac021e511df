import CondRegions.FinMap
import CondRegions.Yaml.Node

/-!
# Anchors and aliases of YAML

An alias stands for the node with its anchor. What an anchor is called does not matter in the end:
in the order of the document every anchor gets a *number*, the count of the names in use before it,
and an alias the number that its name has at that point. A name in use that is given again gets a
new number, but the names in use do not become more, so the next new name gets the same number once
more. Of the nodes with one number the last one counts, for aliases in front of it too.

Aliases are replaced by copies of their nodes. The result is at most 128 collections deep, which
refuses a node that holds itself, and for every event of the document at most a hundred aliases are
followed. An event is a scalar, an alias, or the start or the end of a collection.

* `Node.number?` — anchors and aliases by number;
* `Node.resolve?` — the node with its aliases replaced.
-/

namespace CondRegions.Yaml

/-! ### Numbers -/

/-- Reading with the numbers of the names in use. -/
abbrev Numbering := StateT (FinMap String Nat) Option

/-- The number of an anchor, which is given to its name. -/
def numberAnchor (name : String) : Numbering Nat := do
  let names ← get
  set (names.insert name names.size)
  return names.size

/-- The number of an alias; its name must be in use. -/
def numberAlias (name : String) : Numbering Nat := do
  (← get).get? name

mutual

/-- The node with numbers for its anchors and aliases. -/
def Node.number : Node String → Numbering (Node Nat)
  | .scalar tag style text => return .scalar tag style text
  | .sequence tag items => return .sequence tag (← numberItems items)
  | .mapping tag entries => return .mapping tag (← numberEntries entries)
  | .anchored name node => do
    let anchor ← numberAnchor name
    return .anchored anchor (← node.number)
  | .alias name => return .alias (← numberAlias name)

/-- Several nodes with numbers. -/
def numberItems : List (Node String) → Numbering (List (Node Nat))
  | [] => return []
  | node :: nodes => do
    let item ← node.number
    return item :: (← numberItems nodes)

/-- Several entries with numbers. -/
def numberEntries : List (Node String × Node String) → Numbering (List (Node Nat × Node Nat))
  | [] => return []
  | (key, value) :: rest => do
    let k ← key.number
    let v ← value.number
    return (k, v) :: (← numberEntries rest)

end

/-- The node with numbers for its anchors and aliases; none if an alias has no anchor in front of
it. -/
def Node.number? (node : Node String) : Option (Node Nat) :=
  (node.number .empty).map Prod.fst

/-! ### Views of a tree -/

mutual

/-- The anchors of a tree with their nodes, in the order of the document. -/
def Node.anchors {α : Type} : Node α → List (α × Node α)
  | .scalar .. | .alias _ => []
  | .sequence _ items => itemsAnchors items
  | .mapping _ entries => entriesAnchors entries
  | .anchored a node => (a, node) :: node.anchors

/-- The anchors of several trees. -/
def itemsAnchors {α : Type} : List (Node α) → List (α × Node α)
  | [] => []
  | node :: nodes => node.anchors ++ itemsAnchors nodes

/-- The anchors of several entries. -/
def entriesAnchors {α : Type} : List (Node α × Node α) → List (α × Node α)
  | [] => []
  | (key, value) :: rest => key.anchors ++ value.anchors ++ entriesAnchors rest

end

mutual

/-- The number of events of a tree. -/
def Node.events {α : Type} : Node α → Nat
  | .scalar .. | .alias _ => 1
  | .sequence _ items => itemsEvents items + 2
  | .mapping _ entries => entriesEvents entries + 2
  | .anchored _ node => node.events

/-- The number of events of several trees. -/
def itemsEvents {α : Type} : List (Node α) → Nat
  | [] => 0
  | node :: nodes => node.events + itemsEvents nodes

/-- The number of events of several entries. -/
def entriesEvents {α : Type} : List (Node α × Node α) → Nat
  | [] => 0
  | (key, value) :: rest => key.events + value.events + entriesEvents rest

end

/-! ### Resolution -/

/-- Reading with the number of aliases that may still be followed. -/
abbrev Resolving := StateT Nat Option

/-- Takes one from the aliases that may still be followed. -/
def spendAlias : Resolving Unit := fun left =>
  match left with
  | 0 => none
  | n + 1 => some ((), n)

/-- The node that stands at a place: that of its anchor for an alias, and the node itself
otherwise. -/
def target (anchors : FinMap Nat (Node Nat)) : Node Nat → Resolving (Node Nat)
  | .alias a => do
    spendAlias
    anchors.get? a
  | .anchored _ node => return node
  | node => return node

/-- A node with its aliases replaced, and at most the given number of collections deep. -/
def replaceAliases (anchors : FinMap Nat (Node Nat)) : Nat → Node Nat → Resolving (Node Empty)
  | 0, node => do
    match ← target anchors node with
    | .scalar tag style text => return .scalar tag style text
    | _ => failure
  | depth + 1, node => do
    match ← target anchors node with
    | .scalar tag style text => return .scalar tag style text
    | .sequence tag items => return .sequence tag (← items.mapM (replaceAliases anchors depth))
    | .mapping tag entries =>
      return .mapping tag (← entries.mapM fun (key, value) => do
        let k ← replaceAliases anchors depth key
        return (k, ← replaceAliases anchors depth value))
    | _ => failure

/-- The number of collections that may lie in each other. -/
def maxDepth : Nat := 128

/-- The number of aliases that may be followed for every event. -/
def aliasesPerEvent : Nat := 100

/-- **Resolution.** The node with its aliases replaced. -/
def Node.resolve? (node : Node String) : Option (Node Empty) := do
  let numbered ← node.number?
  let anchors := FinMap.ofList numbered.anchors
  let (resolved, _) ← replaceAliases anchors maxDepth numbered (aliasesPerEvent * numbered.events)
  return resolved

end CondRegions.Yaml
