/-
Schemas: the entities derived so far.

Entities are numbered in the order of their creation, and the number of the entity of
each kind is kept beside them.  The features of an entity are its own followed by those
of its ancestors, a name counting at the nearest level that has it.
-/
import TreeSchema.FinMap
import TreeSchema.Schema.Entity

namespace TreeSchema

/-- The entities derived so far, each at the place of its number. -/
structure Schema where
  entities : Array Entity
  /-- From kinds to the numbers of their entities. -/
  ids : FinMap String EntityId
  deriving DecidableEq

namespace Schema

/-- The schema without entities. -/
def empty : Schema := ⟨#[], ∅⟩

def size (s : Schema) : Nat := s.entities.size

def entity? (s : Schema) (id : EntityId) : Option Entity := s.entities[id.index]?

/-- The entity of the given number, which has to be there. -/
def entity (s : Schema) (id : EntityId) : Except Error Entity :=
  match s.entity? id with
  | some e => .ok e
  | none => .error (.noEntity id.index)

/-- The number of the entity of a kind. -/
def idOf? (s : Schema) (kind : String) : Option EntityId := s.ids.find? kind

/-- The schema with one more entity. -/
def push (s : Schema) (e : Entity) : Schema := ⟨s.entities.push e, s.ids.insert e.kind e.id⟩

/-- The schema with `change` made to one entity. -/
def modify (s : Schema) (id : EntityId) (change : Entity → Entity) : Schema :=
  { s with entities := s.entities.modify id.index change }

/-- The schema with its first `n` entities only. -/
def take (s : Schema) (n : Nat) : Schema := ⟨s.entities.take n, s.ids.filter (·.2.index < n)⟩

/-- The parent of an entity. -/
def parent? (s : Schema) (id : EntityId) : Option EntityId := (s.entity? id).bind Entity.parent

/-- The parents upwards from `id`, at most `n` of them and none of those in `seen`. -/
def ancestorsUpTo (s : Schema) : Nat → List EntityId → EntityId → List EntityId
  | 0, _, _ => []
  | n + 1, seen, id =>
    match s.parent? id with
    | none => []
    | some p => if p ∈ seen then [] else p :: s.ancestorsUpTo n (p :: seen) p

/-- An entity and its ancestors, nearest first. -/
def ancestry (s : Schema) (id : EntityId) : List EntityId :=
  id :: s.ancestorsUpTo s.size [id] id

/-- The first feature of each name. -/
def firstOfEachName : List Feature → List Feature
  | [] => []
  | f :: fs => f :: (firstOfEachName fs).filter (·.name ≠ f.name)

/-- The features of an entity, own and inherited. -/
def features (s : Schema) (id : EntityId) : List Feature :=
  firstOfEachName (((s.ancestry id).filterMap s.entity?).flatMap Entity.features)

/-- The feature of the given name, own or else from the nearest ancestor that has it. -/
def feature? (s : Schema) (id : EntityId) (name : String) : Option Feature :=
  ((s.ancestry id).filterMap s.entity?).findSome? (·.feature? name)

end Schema

end TreeSchema
