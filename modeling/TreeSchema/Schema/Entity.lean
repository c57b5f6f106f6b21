/-
Entities: the object types of a schema.

An entity stands for one rule kind.  Adding a feature whose name the entity already
uses, in whichever role, is refused.
-/
import TreeSchema.Schema.Feature

namespace TreeSchema

/-- The object type derived from one rule kind. -/
structure Entity where
  id : EntityId
  name : String
  kind : String
  parent : Option EntityId
  /-- Whether another entity derives from this one. -/
  isAbstract : Bool
  properties : List Property
  relations : List Relation
  deriving DecidableEq

namespace Entity

/-- An entity without features. -/
def blank (id : EntityId) (name kind : String) : Entity := ⟨id, name, kind, none, false, [], []⟩

def property? (e : Entity) (name : String) : Option Property :=
  e.properties.find? (·.name = name)

def relation? (e : Entity) (name : String) : Option Relation :=
  e.relations.find? (·.name = name)

/-- The relations and then the properties. -/
def features (e : Entity) : List Feature :=
  e.relations.map .relation ++ e.properties.map .property

/-- The relation or else the property of the given name. -/
def feature? (e : Entity) (name : String) : Option Feature :=
  ((e.relation? name).map .relation).or ((e.property? name).map .property)

def hasFeature (e : Entity) (name : String) : Bool :=
  (e.property? name).isSome || (e.relation? name).isSome

def addProperty (e : Entity) (p : Property) : Except Error Entity :=
  if e.hasFeature p.name then .error (.duplicateFeature p.name e.name)
  else .ok { e with properties := e.properties ++ [p] }

def addRelation (e : Entity) (r : Relation) : Except Error Entity :=
  if e.hasFeature r.name then .error (.duplicateFeature r.name e.name)
  else .ok { e with relations := e.relations ++ [r] }

end Entity

end TreeSchema
