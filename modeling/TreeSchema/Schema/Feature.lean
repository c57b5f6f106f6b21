/-
Features: the named facets of an entity.

A property holds scalar values and a relation leads to child elements.  Four property
names are reserved for the computed source positions.
-/
import TreeSchema.Grammar.Kind
import TreeSchema.Error

namespace TreeSchema

/-- The type of the values of a property. -/
inductive Datatype where
  | string
  | integer
  | boolean
  deriving DecidableEq

/-- How many values a feature has on one element. -/
inductive Multiplicity where
  | one
  | many
  deriving DecidableEq

def Datatype.text : Datatype → String
  | .string => "STRING"
  | .integer => "INTEGER"
  | .boolean => "BOOLEAN"

namespace Multiplicity

def ofArity : Arity → Multiplicity
  | .single => one
  | .multi => many

def isSingle : Multiplicity → Bool
  | one => true
  | many => false

def text : Multiplicity → String
  | one => "ONE"
  | many => "MANY"

end Multiplicity

/-- A scalar facet. -/
structure Property where
  name : String
  datatype : Datatype
  multiplicity : Multiplicity
  deriving DecidableEq

/-- The number of an entity in its schema. -/
structure EntityId where
  index : Nat
  deriving DecidableEq

/-- Whether a relation owns what it leads to. -/
inductive RelationKind where
  | containment
  | reference
  deriving DecidableEq

/-- A link from one entity to another. -/
structure Relation where
  name : String
  kind : RelationKind
  multiplicity : Multiplicity
  source : EntityId
  target : EntityId
  deriving DecidableEq

/-- A property or a relation. -/
inductive Feature where
  | property (p : Property)
  | relation (r : Relation)
  deriving DecidableEq

namespace Feature

def name : Feature → String
  | property p => p.name
  | relation r => r.name

def multiplicity : Feature → Multiplicity
  | property p => p.multiplicity
  | relation r => r.multiplicity

def role : Feature → Role
  | property _ => .property
  | relation _ => .relation

def property? : Feature → Option Property
  | property p => some p
  | relation _ => none

def relation? : Feature → Option Relation
  | property _ => none
  | relation r => some r

end Feature

/-- One value of a feature on an element: the feature and the number of the value. -/
structure ValueReference where
  feature : Feature
  index : Nat
  deriving DecidableEq

def ValueReference.name (r : ValueReference) : String := r.feature.name

/-! ### Source positions -/

/-- The computed positions of an element in its source. -/
inductive Position where
  | startLine
  | endLine
  | startColumn
  | endColumn
  deriving DecidableEq

namespace Position

/-- The positions in the order in which an entity lists them. -/
def all : List Position := [startLine, endLine, startColumn, endColumn]

def name : Position → String
  | startLine => "startLine"
  | endLine => "endLine"
  | startColumn => "startColumn"
  | endColumn => "endColumn"

/-- The position that has the given name. -/
def ofName? (name : String) : Option Position := all.find? (·.name = name)

/-- The property that holds a position. -/
def toProperty (p : Position) : Property := ⟨p.name, .integer, .one⟩

end Position

/-- Whether a name is reserved for a source position. -/
def isPositional (name : String) : Bool := (Position.ofName? name).isSome

/-- The properties of the four source positions. -/
def positionalProperties : List Property := Position.all.map Position.toProperty

end TreeSchema
