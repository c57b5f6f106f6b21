/-
Rule kinds: what a grammar says of the nodes of one rule.

A kind has slots, the named positions at which its nodes hold children.  A slot is
either a default accessor, answered by looking through the children of a node for
those that fit its item, or a label, answered by what the node itself bound to the
name.
-/
import TreeSchema.Text.Lowercase

namespace TreeSchema

/-- Whether a slot holds one value or a list. -/
inductive Arity where
  | single
  | multi
  deriving DecidableEq

/-- What a slot holds. -/
inductive Item where
  /-- A terminal, by its symbolic token name. -/
  | terminal (symbol : String)
  /-- A node of the given kind or of one that derives from it. -/
  | node (kind : String)
  deriving DecidableEq

/-- How the children behind a slot are found. -/
inductive Accessor where
  | default
  | label
  deriving DecidableEq

/-- One named position on the nodes of a kind. -/
structure Slot where
  name : String
  arity : Arity
  item : Item
  accessor : Accessor
  deriving DecidableEq

/-- The name of the default accessor for nodes of a kind. -/
def accessorName (kind : String) : String := Text.decapitalize kind

/-- The name of the default accessor for an item. -/
def Item.accessorName : Item → String
  | .terminal symbol => symbol
  | .node kind => TreeSchema.accessorName kind

namespace Slot

/-- A slot that is a default accessor exactly if it has the name of one. -/
def named (name : String) (arity : Arity) (item : Item) : Slot :=
  ⟨name, arity, item, if name = item.accessorName then .default else .label⟩

/-- The default accessor for an item. -/
def ofItem (item : Item) (arity : Arity) : Slot := ⟨item.accessorName, arity, item, .default⟩

/-- A label under which children are bound. -/
def labelled (name : String) (arity : Arity) (item : Item) : Slot := ⟨name, arity, item, .label⟩

def isDefault (s : Slot) : Bool := s.accessor = .default

def isSingle (s : Slot) : Bool := s.arity = .single

def isTerminal (s : Slot) : Bool :=
  match s.item with
  | .terminal _ => true
  | .node _ => false

/-- The kind of the nodes in a slot for nodes. -/
def target? (s : Slot) : Option String :=
  match s.item with
  | .terminal _ => none
  | .node kind => some kind

end Slot

/-- What a grammar says of the nodes of one rule. -/
structure Kind where
  name : String
  /-- The kind that this one derives from. -/
  parent : Option String
  slots : List Slot
  deriving DecidableEq

namespace Kind

/-- The first slot of the given name. -/
def slot? (k : Kind) (name : String) : Option Slot := k.slots.find? (·.name = name)

/-- Whether a slot is a default accessor for nodes that two or more slots hold. -/
def shadows (k : Kind) (s : Slot) : Bool :=
  match s.target? with
  | none => false
  | some target => s.isDefault && 2 ≤ k.slots.countP (·.target? = some target)

/-- The slots that become features unasked: not those that are shadowed and not the
labels of terminals. -/
def exposedSlots (k : Kind) : List Slot :=
  k.slots.filter fun s => !k.shadows s && !(!s.isDefault && s.isTerminal)

end Kind

end TreeSchema
