/-
Blueprints: a grammar with a configuration that fits it.

From a blueprint alone it is known what each slot of each kind contributes to the
schema.  A slot for nodes of a transparent kind contributes what a slot for the only
child of that kind would; `effectiveKind` follows such kinds until one is not
transparent.
-/
import TreeSchema.Config.Basic
import TreeSchema.Grammar.Basic
import TreeSchema.Schema.Basic

namespace TreeSchema

/-- A grammar and a configuration whose ignored tokens the grammar knows. -/
structure Blueprint where
  grammar : Grammar
  config : Config
  /-- The types of the tokens to ignore. -/
  ignoredTypes : List Int
  known : config.ignoredTypes grammar.vocabulary = .ok ignoredTypes

/-- What one slot adds to the entity of its kind. -/
inductive Contribution where
  | nothing
  | property (p : Property)
  /-- A containment relation to the entity of the kind `target`. -/
  | relation (name : String) (multiplicity : Multiplicity) (target : String)
  deriving DecidableEq

namespace Blueprint

/-- The blueprint of a grammar and a configuration, if all tokens to ignore are known. -/
def make (grammar : Grammar) (config : Config) : Except Error Blueprint :=
  match h : config.ignoredTypes grammar.vocabulary with
  | .ok types => .ok ⟨grammar, config, types, h⟩
  | .error e => .error e

/-- Whether tokens of a type are ignored below transparent nodes. -/
def ignoresType (b : Blueprint) (type : Int) : Bool := type ∈ b.ignoredTypes

/-! ### Transparent kinds -/

/-- Whether a slot counts when a transparent kind is replaced by its only child. -/
def isEligible (b : Blueprint) (s : Slot) : Bool :=
  !(s.isTerminal && b.config.ignoresToken s.name)

/-- The kind of the only child of a transparent kind. -/
def onlyTarget (b : Blueprint) (k : Kind) : Except Error String :=
  match k.slots.filter b.isEligible with
  | [s] =>
    if s.isSingle then
      match s.target? with
      | some target => .ok target
      | none => .error (.onlyTerminal k.name)
    else .error (.notOneNode k.name)
  | _ => .error (.notOneNode k.name)

/-- Follows transparent kinds from `kind` on, `seen` being those passed already.  Each step
passes one more kind of the grammar, so there are no more steps than kinds. -/
def effectiveFrom (b : Blueprint) : Nat → List String → String → Except Error String
  | steps, seen, kind =>
    if !b.config.isTransparent kind then .ok kind
    else if kind ∈ seen then .error (.elisionCycle kind)
    else match steps with
      | 0 => .error (.elisionCycle kind)
      | n + 1 => do
        let k ← b.grammar.kind kind
        let target ← b.onlyTarget k
        b.effectiveFrom n (kind :: seen) target

/-- The first kind from `kind` on that is not transparent. -/
def effectiveKind (b : Blueprint) (kind : String) : Except Error String :=
  b.effectiveFrom (b.grammar.kinds.length + 1) [] kind

/-! ### Contributions -/

/-- A property of scalar text, unless the configuration leaves it out. -/
def textProperty (b : Blueprint) (kind name : String) (m : Multiplicity) : Contribution :=
  let p : Property := ⟨name, .string, m⟩
  if b.config.admits kind p then .property p else .nothing

/-- What a slot of `kind` contributes. -/
def contribution (b : Blueprint) (kind : String) (s : Slot) : Except Error Contribution :=
  let name := b.config.featureName kind s.name
  let m := Multiplicity.ofArity s.arity
  match s.item with
  | .terminal _ =>
    .ok (if b.config.ignoresToken s.name then .nothing else b.textProperty kind name m)
  | .node target => do
    let effective ← b.effectiveKind target
    if b.config.isFlattened effective then return b.textProperty kind name m
    else if b.config.isDropped effective then return .nothing
    else return .relation name m effective

/-- The entity of a kind before its slots are looked at. -/
def outline (b : Blueprint) (id : EntityId) (kind : String) (parent : Option EntityId) : Entity :=
  { Entity.blank id (b.config.entityName kind) kind with
    parent := parent
    properties := if b.config.positions then positionalProperties else [] }

end Blueprint

end TreeSchema
