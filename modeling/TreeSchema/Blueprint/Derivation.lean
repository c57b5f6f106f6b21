/-
Deriving entities.

The entity of a kind is derived when it is first asked for, together with all that it
leads to: the entity of its parent first, then those its slots refer to, each with its
own.  An entity joins the schema before its slots are looked at, so that kinds may
refer to themselves and to each other.  Going deeper than the configuration allows is
an error, which also ends a cycle of parents.

A derivation works on a draft and can fail at any depth.  The draft remembers which
entities it made abstract, so that `Draft.undo` can take back everything a failed
derivation did.
-/
import TreeSchema.Blueprint.Basic

namespace TreeSchema

/-- A schema under derivation. -/
structure Draft where
  schema : Schema
  /-- The entities that this derivation made abstract, the last first. -/
  marked : List EntityId

/-- A step of a derivation: changes the draft, whether or not it succeeds. -/
abbrev Drafting := EStateM Error Draft

/-- A request to a schema that may derive further entities. -/
abbrev Deriving := EStateM Error Schema

def Entity.markAbstract (e : Entity) : Entity := { e with isAbstract := true }

def Entity.unmarkAbstract (e : Entity) : Entity := { e with isAbstract := false }

namespace Draft

/-- Takes back what was done since the schema had `size` entities. -/
def undo (d : Draft) (size : Nat) : Schema :=
  d.marked.foldl (fun s id => s.modify id Entity.unmarkAbstract) (d.schema.take size)

/-- Makes an entity abstract and remembers it, unless it is abstract already. -/
def mark (d : Draft) (id : EntityId) (e : Entity) : Draft :=
  if e.isAbstract then d
  else ⟨d.schema.modify id Entity.markAbstract, id :: d.marked⟩

end Draft

namespace Drafting

/-- Adds the entity that `make` gives for the next number. -/
def add (make : EntityId → Entity) : Drafting EntityId := do
  let d ← get
  let id : EntityId := ⟨d.schema.size⟩
  set { d with schema := d.schema.push (make id) }
  return id

/-- Makes an entity abstract. -/
def markAbstract (id : EntityId) : Drafting Unit := do
  let d ← get
  let e ← liftExcept (d.schema.entity id)
  set (d.mark id e)

/-- Changes one entity. -/
def amend (id : EntityId) (change : Entity → Except Error Entity) : Drafting Unit := do
  let d ← get
  let e ← liftExcept (d.schema.entity id)
  let e ← liftExcept (change e)
  set { d with schema := d.schema.modify id fun _ => e }

end Drafting

namespace Blueprint

/-! ### One kind

In these steps `derive` gives the entity of another kind. -/

/-- Derives the parent of a kind and makes it abstract. -/
def deriveParent (b : Blueprint) (derive : String → Drafting EntityId) (kind : String) :
    Drafting (Option EntityId) :=
  match b.grammar.parent? kind with
  | none => pure none
  | some parent => do
    let id ← derive parent
    Drafting.markAbstract id
    return some id

/-- Adds to an entity what a slot of its kind contributes. -/
def contribute (b : Blueprint) (derive : String → Drafting EntityId) (id : EntityId)
    (kind : String) (s : Slot) : Drafting Unit := do
  match ← liftExcept (b.contribution kind s) with
  | .nothing => pure ()
  | .property p => Drafting.amend id (·.addProperty p)
  | .relation name m target =>
    let targetId ← derive target
    Drafting.amend id (·.addRelation ⟨name, .containment, m, id, targetId⟩)

/-- Adds to an entity what a slot contributes that the configuration asks for by name. -/
def contributeForced (b : Blueprint) (derive : String → Drafting EntityId) (id : EntityId)
    (k : Kind) (name : String) : Drafting Unit :=
  match k.slot? name with
  | some s => b.contribute derive id k.name s
  | none => throw (.noSlot k.name name)

/-- Adds a new entity for a kind and fills in its features. -/
def deriveNew (b : Blueprint) (derive : String → Drafting EntityId) (k : Kind)
    (parent : Option EntityId) : Drafting EntityId := do
  let id ← Drafting.add fun id => b.outline id k.name parent
  k.exposedSlots.forM (b.contribute derive id k.name)
  (b.config.rule k.name).forced.forM (b.contributeForced derive id k)
  return id

/-- Derives a kind that has no entity yet.  The slots of its parent may lead back to it, so
it can have one once the parent is there. -/
def deriveKind (b : Blueprint) (derive : String → Drafting EntityId) (kind : String) :
    Drafting EntityId := do
  let k ← liftExcept (b.grammar.kind kind)
  let parent ← b.deriveParent derive kind
  match (← get).schema.idOf? kind with
  | some id => return id
  | none => b.deriveNew derive k parent

/-- The entity of a kind, made by `make` if it is not there.  Kinds that are passed over
have none. -/
def lookUpOr (b : Blueprint) (kind : String) (make : Drafting EntityId) : Drafting EntityId :=
  match b.config.exclusion? kind with
  | some why => throw (.unmappable kind why)
  | none => do
    match (← get).schema.idOf? kind with
    | some id => return id
    | none => make

/-! ### All that a kind leads to -/

/-- The entity of a kind, derived with at most `levels` derivations inside one another. -/
def derive (b : Blueprint) : Nat → String → Drafting EntityId
  | 0, kind => b.lookUpOr kind (throw (.tooDeep b.config.maxDepth))
  | n + 1, kind => b.lookUpOr kind (b.deriveKind (b.derive n) kind)

/-- The entity of a kind, derived if it is not there yet.  A failed derivation leaves no
trace. -/
def entityId (b : Blueprint) (kind : String) : Deriving EntityId := fun s =>
  match b.derive (b.config.maxDepth + 1) kind ⟨s, []⟩ with
  | .ok id d => .ok id d.schema
  | .error e d => .error e (d.undo s.size)

/-- The entity of a kind as it stands once it is there. -/
def entityFor (b : Blueprint) (kind : String) : Deriving Entity := do
  let id ← b.entityId kind
  liftExcept ((← get).entity id)

/-- Whether a kind of the grammar gets an entity of its own. -/
def isMappable (b : Blueprint) (kind : String) : Bool :=
  !b.grammar.isBase kind && (b.config.exclusion? kind).isNone

/-- Derives the entities of all kinds, stopping at the first that fails; returns how many
entities there are. -/
def deriveAll (b : Blueprint) : Deriving Nat := do
  ((b.grammar.kinds.map Kind.name).filter b.isMappable).forM fun kind => do
    let _ ← b.entityId kind
  return (← get).size

end Blueprint

end TreeSchema
