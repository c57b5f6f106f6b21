/-
Elements: nodes of a tree seen through a schema.

An element is a node together with the entity of its kind and the elements it was
reached through.  A transparent node is never an element itself: the only child of it
that matters stands in for it, and for that one in turn if it is transparent too.
-/
import TreeSchema.Blueprint.Derivation
import TreeSchema.Tree.Basic

namespace TreeSchema

/-- A tree among others, told apart by its number. -/
structure Document where
  number : Nat
  tree : Tree

/-- A document as a blueprint presents it. -/
structure View where
  blueprint : Blueprint
  document : Document

/-- A node of a document with the entity of its kind. -/
structure Placement where
  document : Nat
  node : NodeId
  entity : EntityId
  deriving DecidableEq

/-- A node of a document, its entity, and what it was reached through. -/
structure Element where
  document : Nat
  node : NodeId
  entity : EntityId
  /-- The parent, its parent and so on, nearest first. -/
  above : List Placement
  deriving DecidableEq

namespace Element

def placement (e : Element) : Placement := ⟨e.document, e.node, e.entity⟩

/-- The elements at the places of a row, each with the rest of the row above it. -/
def along : List Placement → List Element
  | [] => []
  | p :: ps => ⟨p.document, p.node, p.entity, ps⟩ :: along ps

/-- The elements above, nearest first. -/
def ancestors (e : Element) : List Element := along e.above

/-- The element that this one was reached from, as it was. -/
def parent? (e : Element) : Option Element := e.ancestors.head?

/-- Whether two elements are the same node with the same entity, however they were reached. -/
def isSame (d e : Element) : Bool :=
  d.document = e.document && d.node = e.node && d.entity = e.entity

end Element

namespace Blueprint

/-! ### Transparent nodes -/

/-- Whether a child counts when its parent is replaced by its only child. -/
def isRelevant (b : Blueprint) (t : Tree) : Child → Except Error Bool
  | .node _ => .ok true
  | .token id => do return !b.ignoresType (← t.token id).type

/-- The first children that count, at most `n`. -/
def takeRelevant (b : Blueprint) (t : Tree) : Nat → List Child → Except Error (List Child)
  | 0, _ => .ok []
  | _ + 1, [] => .ok []
  | n + 1, c :: cs => do
    if ← b.isRelevant t c then return c :: (← b.takeRelevant t n cs)
    else b.takeRelevant t (n + 1) cs

/-- The node that stands in for a transparent node. -/
def standIn (b : Blueprint) (t : Tree) (n : Node) : Except Error NodeId := do
  match ← b.takeRelevant t 2 n.children with
  | [.node id] => return id
  | [.token _] => throw (.terminalChild n.kind)
  | _ => throw (.childCount n.kind n.children.length)

/-- Passes at most `steps` transparent nodes. -/
def elideFrom (b : Blueprint) (t : Tree) : Nat → NodeId → Except Error NodeId
  | steps, id => do
    let n ← t.node id
    if !b.config.isTransparent n.kind then return id
    else match steps with
      | 0 => throw (.endlessWalk n.kind)
      | k + 1 => b.elideFrom t k (← b.standIn t n)

/-- The node that is seen in the place of a node.  A walk past more transparent nodes than
the tree has nodes has come back to one of them and has no end. -/
def elide (b : Blueprint) (t : Tree) (id : NodeId) : Except Error NodeId :=
  b.elideFrom t t.nodes.size id

/-- The node that is seen in the place of a node, unless its kind is dropped. -/
def kept? (b : Blueprint) (t : Tree) (id : NodeId) : Except Error (Option NodeId) := do
  let id ← b.elide t id
  return if b.config.isDropped (← t.kind id) then none else some id

end Blueprint

namespace View

def tree (v : View) : Tree := v.document.tree

/-- The element for a node, reached through `above`. -/
def element (v : View) (id : NodeId) (above : List Placement) : Deriving Element := do
  let id ← liftExcept (v.blueprint.elide v.tree id)
  let entity ← v.blueprint.entityId (← liftExcept (v.tree.kind id))
  return ⟨v.document.number, id, entity, above⟩

/-- The element for a node, reached from another element. -/
def elementBelow (v : View) (e : Element) (id : NodeId) : Deriving Element :=
  v.element id (e.placement :: e.above)

/-- The element for the root of the document. -/
def root (v : View) : Deriving Element :=
  match v.tree.root with
  | some id => v.element id []
  | none => throw .noRoot

/-- The kind of the node of an element. -/
def kind (v : View) (e : Element) : Except Error String := v.tree.kind e.node

end View

end TreeSchema
