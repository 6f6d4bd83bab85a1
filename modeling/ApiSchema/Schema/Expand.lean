import ApiSchema.Schema.Node

/-!
Field paths: `items.*.name` names a field of the elements of `items`. Fragments given by path, in any
order and with levels left out, are put together to one tree, in which the missing levels are optional.
-/
namespace ApiSchema

open Text

def elementSegment : String := "*"

/-- The segments of a path without blanks; empty ones are left out. -/
def pathSegments (path : String) : List String :=
  ((split '.' path).map strip).filter (!·.isEmpty)

inductive PathTree where
  | node (fragment : Option Node) (named : List (String × PathTree)) (element : Option PathTree)

namespace PathTree

def empty : PathTree := .node none [] none

/-- The tree with a fragment at a path, in place of an earlier one. -/
def insert (fragment : Node) : List String → PathTree → PathTree
  | [], .node _ named element => .node (some fragment) named element
  | s :: rest, .node own named element =>
    if s == elementSegment then
      .node own named (some (insert fragment rest (element.getD empty)))
    else
      .node own (Entries.set named s (insert fragment rest ((Entries.get? named s).getD empty))) element

/-- The facets of a container with a fragment of its own: those that do not speak of a value. -/
def wrapperFacets (kind : Kind) : Option Node → Facets
  | none => {}
  | some n => {
      nullable := n.facets.nullable
      required := n.facets.required
      deprecated := n.facets.deprecated
      conditional := n.facets.conditional
      description := n.facets.description
      constraints := if n.kind == kind then n.facets.constraints else none
      requirements := n.facets.requirements
      sourceType := n.facets.sourceType }

mutual

/-- The node of a tree: an object if it has named parts, else an array if it has elements. -/
def toNode : PathTree → Node
  | .node fragment named element =>
    match named with
    | (name, t) :: rest =>
      .object (wrapperFacets .object fragment) ((name, toNode t) :: toNodes rest)
    | [] =>
      match element with
      | some t => .array (wrapperFacets .array fragment) (toNode t)
      | none => fragment.getD (Node.objectOf [])

def toNodes : List (String × PathTree) → List (String × Node)
  | [] => []
  | (name, t) :: rest => (name, toNode t) :: toNodes rest

end

end PathTree

/-- The tree of fragments given by path. A path without segments is skipped, and of two fragments at
one path the last counts. -/
def pathTree (fragments : List (String × Node)) : PathTree :=
  fragments.foldl (fun t (path, fragment) =>
    match pathSegments path with
    | [] => t
    | segments => t.insert fragment segments) PathTree.empty

def expandPaths (fragments : List (String × Node)) : Node := (pathTree fragments).toNode

end ApiSchema
