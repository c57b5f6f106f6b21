/-
Reading the features of elements.

A feature is looked up in the schema, its role and multiplicity have to be the ones
asked for, and then the children behind it are read as values or seen as elements.
Values are read from tree and schema as they are; seeing a child as an element may
derive its entity first.  Nothing is ever changed in a mapped tree.
-/
import TreeSchema.Element.Basic
import TreeSchema.Element.Filling
import TreeSchema.Element.Position

namespace TreeSchema.View

/-! ### Looking features up -/

/-- The feature of an element of the given name. -/
def feature (v : View) (s : Schema) (e : Element) (name : String) : Except Error Feature := do
  match s.feature? e.entity name with
  | some f => return f
  | none => throw (.noFeature name (← v.kind e))

/-- The property of the given name, which has to be single-valued or not as asked. -/
def property (v : View) (s : Schema) (e : Element) (name : String) (single : Bool) :
    Except Error Property := do
  match ← v.feature s e name with
  | .relation _ => throw (.wrongRole name (← v.kind e) .property)
  | .property p =>
    if p.multiplicity.isSingle = single then return p
    else throw (.wrongMultiplicity p.name (← v.kind e) .property p.multiplicity.isSingle)

/-- The relation of the given name, which has to be single-valued or not as asked. -/
def relation (v : View) (s : Schema) (e : Element) (name : String) (single : Bool) :
    Except Error Relation := do
  match ← v.feature s e name with
  | .property _ => throw (.wrongRole name (← v.kind e) .relation)
  | .relation r =>
    if r.multiplicity.isSingle = single then return r
    else throw (.wrongMultiplicity r.name (← v.kind e) .relation r.multiplicity.isSingle)

/-- The children behind a feature of an element. -/
def filling (v : View) (e : Element) (feature : String) : Except Error Filling :=
  v.blueprint.filling v.tree e.node feature

/-- The child behind a feature, which has to be bound singly. -/
def fillingOne (v : View) (e : Element) (feature : String) : Except Error (Option Child) := do
  match ← v.filling e feature with
  | .one c => return c
  | .many _ => throw (.wrongShape feature (← v.kind e) true)

/-- The children behind a feature, which have to be bound as a list. -/
def fillingMany (v : View) (e : Element) (feature : String) : Except Error (List Child) := do
  match ← v.filling e feature with
  | .many cs => return cs
  | .one _ => throw (.wrongShape feature (← v.kind e) false)

/-! ### Properties -/

/-- The value of a single-valued property, if the node has one. -/
def value? (v : View) (s : Schema) (e : Element) (name : String) :
    Except Error (Option Value) := do
  let p ← v.property s e name true
  match Position.ofName? p.name with
  | some position => return some (.ofNat (← v.tree.positionOf e.node position))
  | none => (← v.fillingOne e p.name).mapM v.tree.childValue

/-- The values of a multi-valued property. -/
def values (v : View) (s : Schema) (e : Element) (name : String) :
    Except Error (List Value) := do
  let p ← v.property s e name false
  (← v.fillingMany e p.name).mapM v.tree.childValue

/-! ### Relations -/

/-- The node that a relation leads to. -/
def relationNode (v : View) (e : Element) (relation : String) : Child → Except Error NodeId
  | .node id => .ok id
  | .token _ => do throw (.tokenInRelation relation (← v.kind e))

/-- The child of a relation as an element, unless its kind is dropped. -/
def childElement (v : View) (e : Element) (relation : String) (c : Child) :
    Deriving (Option Element) := do
  let id ← liftExcept (v.relationNode e relation c)
  match ← liftExcept (v.blueprint.kept? v.tree id) with
  | none => return none
  | some _ => some <$> v.elementBelow e id

/-- The element that a single-valued relation leads to, if there is one. -/
def child? (v : View) (e : Element) (name : String) : Deriving (Option Element) := do
  let r ← liftExcept (v.relation (← get) e name true)
  match ← liftExcept (v.fillingOne e r.name) with
  | none => return none
  | some c => v.childElement e r.name c

/-- The elements that a multi-valued relation leads to. -/
def children (v : View) (e : Element) (name : String) : Deriving (List Element) := do
  let r ← liftExcept (v.relation (← get) e name false)
  (← liftExcept (v.fillingMany e r.name)).filterMapM (v.childElement e r.name)

/-- The elements that a relation leads to. -/
def related (v : View) (e : Element) (r : Relation) : Deriving (List Element) :=
  if r.multiplicity.isSingle then Option.toList <$> v.child? e r.name
  else v.children e r.name

/-- The elements that the relations of an element lead to, one relation after the other. -/
def allChildren (v : View) (e : Element) : Deriving (List Element) := do
  (((← get).features e.entity).filterMap Feature.relation?).flatMapM (v.related e)

def firstChild? (v : View) (e : Element) : Deriving (Option Element) :=
  List.head? <$> v.allChildren e

/-! ### Requests to change -/

/-- Mapped trees are read-only: every request to change one is refused. -/
def mutate (v : View) (e : Element) (m : Mutation) (feature : String) : Except Error Unit := do
  throw (.readOnly m feature (← v.kind e))

end TreeSchema.View
