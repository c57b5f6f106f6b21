/-
The listing of a schema as text.

Entities come in the order of their names with an empty line between them; below each
stand its relations and then its properties, four blanks in.  A star marks what has
many values.
-/
import TreeSchema.Schema.Basic

namespace TreeSchema

def Multiplicity.star : Multiplicity → String
  | .one => ""
  | .many => "*"

namespace Schema

/-- The name of an entity, or a question mark. -/
def nameOf (s : Schema) (id : EntityId) : String := ((s.entity? id).map Entity.name).getD "?"

def relationLine (s : Schema) (r : Relation) : String :=
  s!"    relation {r.name} -> {s.nameOf r.target}{r.multiplicity.star}\n"

def propertyLine (p : Property) : String :=
  s!"    property {p.name} -> {p.datatype.text}{p.multiplicity.star}\n"

def headLine (s : Schema) (e : Entity) : String :=
  let mark := if e.isAbstract then "ABSTRACT " else ""
  let parent := match e.parent with
    | some p => " : " ++ s.nameOf p
    | none => ""
  s!"{mark}ENTITY {e.name}{parent}\n"

/-- One entity, its source positions only if `positions` is set. -/
def listEntity (s : Schema) (positions : Bool) (e : Entity) : String :=
  let shown := e.properties.filter fun p => positions || !isPositional p.name
  s.headLine e ++ String.join (e.relations.map s.relationLine)
    ++ String.join (shown.map propertyLine)

/-- The entities in the order of their names, those of one name in the order of creation. -/
def byName (s : Schema) : List Entity :=
  s.entities.toList.mergeSort fun a b => a.name ≤ b.name

/-- The listing of a schema, source positions only if `positions` is set. -/
def listing (s : Schema) (positions : Bool) : String :=
  "\n".intercalate (s.byName.map (s.listEntity positions))

end Schema

end TreeSchema
