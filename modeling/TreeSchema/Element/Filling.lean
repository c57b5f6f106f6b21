/-
What the slots of a node hold.

A feature is traced back to the slot it came from: the nearest kind, from that of the
node upwards, that has a slot of the name its own rule gives for the feature.  What
the node bound to that name counts first; an unbound label is empty, and for a default
accessor the children of the node are looked through.
-/
import TreeSchema.Blueprint.Basic
import TreeSchema.Tree.Basic

namespace TreeSchema

/-- The children behind one slot of one node. -/
inductive Filling where
  | one (child : Option Child)
  | many (children : List Child)
  deriving DecidableEq

namespace Filling

/-- A slot that holds nothing. -/
def empty : Arity → Filling
  | .single => one none
  | .multi => many []

/-- A slot that holds the children found for it; a single one holds the first. -/
def ofFound : Arity → List Child → Filling
  | .single, cs => one cs.head?
  | .multi, cs => many cs

/-- What a node bound to a name. -/
def ofBinding : Binding → Filling
  | .one c => one (some c)
  | .many cs => many cs

def toList : Filling → List Child
  | one c => c.toList
  | many cs => cs

end Filling

namespace Blueprint

/-- The slot behind a feature of a kind and the name by which it was found. -/
def declaredSlot? (b : Blueprint) (kind feature : String) : Option (String × Slot) :=
  (b.grammar.lineage kind).findSome? fun k =>
    let name := b.config.slotName k feature
    ((b.grammar.kind? k).bind (·.slot? name)).map (name, ·)

/-- Whether a child is a node of a kind that conforms to `target`. -/
def isNodeOf (b : Blueprint) (t : Tree) (target : String) : Child → Except Error Bool
  | .node id => do return b.grammar.conforms (← t.kind id) target
  | .token _ => .ok false

/-- Whether a child is a token of a type. -/
def isTokenOf (t : Tree) (type : Int) : Child → Except Error Bool
  | .node _ => .ok false
  | .token id => do return (← t.token id).type = type

/-- The children of a node that fit a slot, which was found by `name`. -/
def fitting (b : Blueprint) (t : Tree) (n : Node) (name : String) (s : Slot) :
    Except Error (List Child) :=
  match s.item with
  | .node target => n.children.filterM (b.isNodeOf t target)
  | .terminal symbol =>
    match b.grammar.vocabulary.type? symbol with
    | some type => n.children.filterM (isTokenOf t type)
    | none => .error (.unknownSymbol symbol name)

/-- The children behind a feature of a node. -/
def filling (b : Blueprint) (t : Tree) (id : NodeId) (feature : String) :
    Except Error Filling := do
  let n ← t.node id
  match b.declaredSlot? n.kind feature with
  | none => throw (.noAccessor feature n.kind)
  | some (name, s) =>
    match n.bindings.find? name with
    | some binding => return .ofBinding binding
    | none =>
      if s.isDefault then return .ofFound s.arity (← b.fitting t n name s)
      else return .empty s.arity

end Blueprint

end TreeSchema
