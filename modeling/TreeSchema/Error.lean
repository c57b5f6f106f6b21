/-
Why a request fails.

Every cause is a constructor with the names it is about; `Error.fault` says what kind
of fault it is and `Error.message` how it is reported.
-/

namespace TreeSchema

/-- The kinds of fault. -/
inductive Fault where
  /-- Grammar and configuration cannot describe what was asked for. -/
  | configuration
  /-- A tree does not have the shape that the schema declares. -/
  | structuralMismatch
  /-- The request is not supported. -/
  | unsupported
  /-- The nesting is deeper than the configuration allows. -/
  | depthLimit
  /-- An identifier that denotes nothing. -/
  | dangling
  /-- A walk down a tree that contains itself has no end. -/
  | endless
  deriving DecidableEq

/-- Why a kind has no entity. -/
inductive Exclusion where
  | transparent
  | flattened
  | dropped
  deriving DecidableEq

/-- The two roles a feature can have. -/
inductive Role where
  | property
  | relation
  deriving DecidableEq

/-- The requests that would change a mapped tree. -/
inductive Mutation where
  | setProperty
  | setRelation
  | addRelation
  | removeRelation
  deriving DecidableEq

inductive Error where
  /-- A token to ignore that the vocabulary does not know. -/
  | unknownToken (name : String)
  /-- A terminal slot whose symbol the vocabulary does not know. -/
  | unknownSymbol (symbol slot : String)
  | noKind (kind : String)
  | unmappable (kind : String) (why : Exclusion)
  /-- A slot to include that the kind does not have. -/
  | noSlot (kind slot : String)
  | elisionCycle (kind : String)
  /-- A transparent kind whose only slot is a terminal. -/
  | onlyTerminal (kind : String)
  /-- A transparent kind without a single node slot of its own. -/
  | notOneNode (kind : String)
  | duplicateFeature (feature entity : String)
  | noFeature (feature kind : String)
  /-- A feature that has the other role than the one asked for. -/
  | wrongRole (feature kind : String) (role : Role)
  /-- A feature asked for as a list that holds one value, or the other way round. -/
  | wrongMultiplicity (feature kind : String) (role : Role) (single : Bool)
  | noAccessor (feature kind : String)
  | noOpenNode
  | unfinishedNode (kind : String)
  | secondRoot (kind : String)
  | noRoot
  /-- A transparent node with nothing but a terminal to stand for it. -/
  | terminalChild (kind : String)
  /-- A transparent node with no child or several to stand for it, and all its children. -/
  | childCount (kind : String) (children : Nat)
  /-- A binding whose form differs from the declaration. -/
  | wrongShape (feature kind : String) (single : Bool)
  | tokenInRelation (relation kind : String)
  | noFirstToken (kind : String)
  | noLastToken (kind : String)
  | readOnly (mutation : Mutation) (feature kind : String)
  /-- A request refused by the caller's own visitor. -/
  | refused (reason : String)
  | tooDeep (limit : Nat)
  | noNode (id : Nat)
  | noToken (id : Nat)
  | noEntity (id : Nat)
  /-- A walk from a node of this kind that has no end. -/
  | endlessWalk (kind : String)
  deriving DecidableEq

namespace Error

/-- The kind of fault that an error is. -/
def fault : Error → Fault
  | unknownToken _ | unknownSymbol .. | noKind _ | unmappable .. | noSlot .. | elisionCycle _
  | onlyTerminal _ | notOneNode _ | duplicateFeature .. | noFeature .. | wrongRole ..
  | wrongMultiplicity .. | noAccessor .. => .configuration
  | noOpenNode | unfinishedNode _ | secondRoot _ | noRoot | terminalChild _ | childCount ..
  | wrongShape .. | tokenInRelation .. | noFirstToken _ | noLastToken _ => .structuralMismatch
  | readOnly .. | refused _ => .unsupported
  | tooDeep _ => .depthLimit
  | noNode _ | noToken _ | noEntity _ => .dangling
  | endlessWalk _ => .endless

end Error

def Exclusion.text : Exclusion → String
  | .transparent => "transparent"
  | .flattened => "treated as a token"
  | .dropped => "dropped"

def Role.text : Role → String
  | .property => "property"
  | .relation => "relation"

/-- The role of a feature that does not have the role `r`. -/
def Role.other : Role → Role
  | .property => .relation
  | .relation => .property

def Role.title : Role → String
  | .property => "Property"
  | .relation => "Relation"

def Mutation.text : Mutation → String
  | .setProperty => "set property"
  | .setRelation => "set relation"
  | .addRelation => "add to relation"
  | .removeRelation => "remove from relation"

/-- How many values a declaration promises. -/
def valued (single : Bool) : String := if single then "single-valued" else "multi-valued"

namespace Error

/-- What an error says of its cause. -/
def detail : Error → String
  | unknownToken name => s!"Unknown token name '{name}'"
  | unknownSymbol symbol slot => s!"Unknown token name '{symbol}' in slot '{slot}'"
  | noKind kind => s!"No descriptor for kind '{kind}'"
  | unmappable kind why => s!"Kind '{kind}' is {why.text}, no entity can be generated for it"
  | noSlot kind slot => s!"Kind '{kind}' has no slot '{slot}' to include"
  | elisionCycle kind => s!"Transparent kinds form a cycle through '{kind}'"
  | onlyTerminal kind => s!"Transparent kind '{kind}' has a terminal as its only slot"
  | notOneNode kind =>
    s!"Transparent kind '{kind}' must have exactly one single-valued, non-terminal slot"
  | duplicateFeature feature entity =>
    s!"Duplicate feature name '{feature}' for entity {entity}"
  | noFeature feature kind => s!"Entity for '{kind}' has no feature '{feature}'"
  | wrongRole feature kind role =>
    s!"Feature '{feature}' of '{kind}' is a {role.other.text}, not a {role.text}"
  | wrongMultiplicity feature kind role single =>
    s!"{role.title} '{feature}' of {kind} is {valued single}"
  | noAccessor feature kind => s!"No accessor '{feature}' on node kind '{kind}'"
  | noOpenNode => "finish_node called with no open node"
  | unfinishedNode kind => s!"node '{kind}' was never finished"
  | secondRoot kind => s!"second root node '{kind}'"
  | noRoot => "parse tree has no root node"
  | terminalChild kind => s!"transparent node '{kind}' has a terminal as its only child"
  | childCount kind children =>
    s!"transparent node '{kind}' must have exactly one child, found {children} raw children"
  | wrongShape feature kind single =>
    let found := if single then "a list" else "a single value"
    s!"feature '{feature}' of '{kind}' is declared {valued single} but the node holds {found}"
  | tokenInRelation relation kind =>
    s!"relation '{relation}' of '{kind}' resolved to a token, expected a node"
  | noFirstToken kind => s!"node '{kind}' has no first token"
  | noLastToken kind => s!"node '{kind}' has text but no last token"
  | readOnly mutation feature kind =>
    s!"cannot {mutation.text} '{feature}' on '{kind}': mapped elements are read-only"
  | refused reason => reason
  | tooDeep limit => s!"Nesting depth limit of {limit} exceeded"
  | noNode id => s!"no node {id}"
  | noToken id => s!"no token {id}"
  | noEntity id => s!"no entity {id}"
  | endlessWalk kind => s!"the tree below a node '{kind}' has no end"

/-- The full text of an error: what kind of fault it is and what it says of its cause. -/
def message (e : Error) : String :=
  match e.fault with
  | .configuration => "Configuration error: " ++ e.detail
  | .structuralMismatch => "Structural mismatch: " ++ e.detail
  | .unsupported => "Unsupported operation: " ++ e.detail
  | .depthLimit | .dangling | .endless => e.detail

end Error

end TreeSchema
