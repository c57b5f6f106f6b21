/-
The written form of entities and their features.
-/
import TreeSchema.Json.Reader
import TreeSchema.Json.Writer
import TreeSchema.Schema.Entity

namespace TreeSchema

open Json

def Datatype.toJson : Datatype → Json
  | .string => str "String"
  | .integer => str "Integer"
  | .boolean => str "Boolean"

def Datatype.ofJson? (j : Json) : Option Datatype := do
  match ← j.variant? with
  | "String" => some .string
  | "Integer" => some .integer
  | "Boolean" => some .boolean
  | _ => none

def Multiplicity.toJson : Multiplicity → Json
  | .one => str "One"
  | .many => str "Many"

def Multiplicity.ofJson? (j : Json) : Option Multiplicity := do
  match ← j.variant? with
  | "One" => some .one
  | "Many" => some .many
  | _ => none

def RelationKind.toJson : RelationKind → Json
  | .containment => str "Containment"
  | .reference => str "Reference"

def RelationKind.ofJson? (j : Json) : Option RelationKind := do
  match ← j.variant? with
  | "Containment" => some .containment
  | "Reference" => some .reference
  | _ => none

def EntityId.toJson (id : EntityId) : Json := ofNat id.index

def EntityId.ofJson? (j : Json) : Option EntityId := j.id?.map .mk

def Property.toJson (p : Property) : Json :=
  obj [("name", str p.name), ("datatype", p.datatype.toJson),
    ("multiplicity", p.multiplicity.toJson)]

def Property.ofJson? (j : Json) : Option Property := do
  let fs ← j.record? ["name", "datatype", "multiplicity"]
  return ⟨← field? fs "name" text?, ← field? fs "datatype" Datatype.ofJson?,
    ← field? fs "multiplicity" Multiplicity.ofJson?⟩

def Relation.toJson (r : Relation) : Json :=
  obj [("name", str r.name), ("kind", r.kind.toJson), ("multiplicity", r.multiplicity.toJson),
    ("source", r.source.toJson), ("target", r.target.toJson)]

def Relation.ofJson? (j : Json) : Option Relation := do
  let fs ← j.record? ["name", "kind", "multiplicity", "source", "target"]
  return ⟨← field? fs "name" text?, ← field? fs "kind" RelationKind.ofJson?,
    ← field? fs "multiplicity" Multiplicity.ofJson?, ← field? fs "source" EntityId.ofJson?,
    ← field? fs "target" EntityId.ofJson?⟩

def Feature.toJson : Feature → Json
  | .property p => obj [("Property", p.toJson)]
  | .relation r => obj [("Relation", r.toJson)]

def Feature.ofJson? (j : Json) : Option Feature := do
  match ← j.tagged? with
  | ("Property", p) => (Property.ofJson? p).map .property
  | ("Relation", r) => (Relation.ofJson? r).map .relation
  | _ => none

def ValueReference.toJson (r : ValueReference) : Json :=
  obj [("feature", r.feature.toJson), ("index", ofNat r.index)]

namespace Entity

def toJson (e : Entity) : Json :=
  obj [("id", e.id.toJson), ("name", str e.name), ("kind", str e.kind),
    ("parent", ofOption EntityId.toJson e.parent), ("is_abstract", bool e.isAbstract),
    ("properties", ofList Property.toJson e.properties),
    ("relations", ofList Relation.toJson e.relations)]

def ofJson? (j : Json) : Option Entity := do
  let fs ← j.record? ["id", "name", "kind", "parent", "is_abstract", "properties", "relations"]
  return ⟨← field? fs "id" EntityId.ofJson?, ← field? fs "name" text?, ← field? fs "kind" text?,
    ← fieldOpt? fs "parent" EntityId.ofJson?, ← field? fs "is_abstract" bool?,
    ← field? fs "properties" (list? Property.ofJson?),
    ← field? fs "relations" (list? Relation.ofJson?)⟩

/-- The entity that a text describes. -/
def read? (text : String) : Option Entity := (Json.read? text).bind ofJson?

end Entity

end TreeSchema
