/-
Configuration of a mapping.

A configuration says which kinds are passed over: a transparent kind gives way to its
only child, a flattened one becomes a scalar, a dropped one vanishes.  It also renames
entities and slots, hides properties and tokens, asks for slots that would not be
exposed otherwise, and bounds the depth of every recursion.
-/
import TreeSchema.NameSet
import TreeSchema.Grammar.Vocabulary
import TreeSchema.Schema.Feature

namespace TreeSchema

/-- What is configured for one kind. -/
structure KindRule where
  /-- Names of properties to leave out. -/
  ignored : NameSet
  /-- Names of slots to include besides the exposed ones, in this order. -/
  forced : List String
  /-- From slot names to feature names. -/
  renames : FinMap String String
  deriving DecidableEq

namespace KindRule

/-- The rule that changes nothing. -/
def empty : KindRule := ⟨∅, [], ∅⟩

/-- The name of the slot behind a feature. -/
def slotName (r : KindRule) (feature : String) : String :=
  match r.renames.entries.find? (·.2 = feature) with
  | some (slot, _) => slot
  | none => feature

/-- The name of the feature that a slot becomes. -/
def featureName (r : KindRule) (slot : String) : String := (r.renames.find? slot).getD slot

end KindRule

/-- How the kinds of a grammar are mapped. -/
structure Config where
  transparent : NameSet
  flattened : NameSet
  dropped : NameSet
  /-- From kinds to entity names. -/
  entityNames : FinMap String String
  ignoredTokens : NameSet
  rules : FinMap String KindRule
  /-- Whether entities get properties for their source positions. -/
  positions : Bool
  maxDepth : Nat
  deriving DecidableEq

namespace Config

/-- The configuration that maps every kind as it is. -/
def standard : Config := ⟨∅, ∅, ∅, ∅, ∅, ∅, false, 512⟩

/-! ### Changing a configuration -/

def markTransparent (c : Config) (kind : String) : Config :=
  { c with transparent := c.transparent.insert kind }

def flatten (c : Config) (kind : String) : Config :=
  { c with flattened := c.flattened.insert kind }

def drop (c : Config) (kind : String) : Config := { c with dropped := c.dropped.insert kind }

def renameEntity (c : Config) (kind name : String) : Config :=
  { c with entityNames := c.entityNames.insert kind name }

def ignoreToken (c : Config) (name : String) : Config :=
  { c with ignoredTokens := c.ignoredTokens.insert name }

def withPositions (c : Config) (positions : Bool) : Config := { c with positions := positions }

def withMaxDepth (c : Config) (depth : Nat) : Config := { c with maxDepth := depth }

/-- Changes the rule of a kind, which changes nothing to begin with. -/
def updateRule (c : Config) (kind : String) (change : KindRule → KindRule) : Config :=
  { c with rules := c.rules.insert kind (change ((c.rules.find? kind).getD .empty)) }

def renameSlot (c : Config) (kind slot feature : String) : Config :=
  c.updateRule kind fun r => { r with renames := r.renames.insert slot feature }

def ignoreProperty (c : Config) (kind name : String) : Config :=
  c.updateRule kind fun r => { r with ignored := r.ignored.insert name }

/-- Asks for a slot, once. -/
def includeSlot (c : Config) (kind slot : String) : Config :=
  c.updateRule kind fun r =>
    if slot ∈ r.forced then r else { r with forced := r.forced ++ [slot] }

/-! ### Asking a configuration -/

def isTransparent (c : Config) (kind : String) : Bool := kind ∈ c.transparent

def isFlattened (c : Config) (kind : String) : Bool := kind ∈ c.flattened

def isDropped (c : Config) (kind : String) : Bool := kind ∈ c.dropped

def ignoresToken (c : Config) (name : String) : Bool := name ∈ c.ignoredTokens

/-- Why a kind gets no entity, if it gets none. -/
def exclusion? (c : Config) (kind : String) : Option Exclusion :=
  if c.isTransparent kind then some .transparent
  else if c.isFlattened kind then some .flattened
  else if c.isDropped kind then some .dropped
  else none

def rule? (c : Config) (kind : String) : Option KindRule := c.rules.find? kind

/-- The rule of a kind; the empty one where none was given. -/
def rule (c : Config) (kind : String) : KindRule := (c.rule? kind).getD .empty

def entityName (c : Config) (kind : String) : String := (c.entityNames.find? kind).getD kind

/-- The name of the slot of a kind behind a feature. -/
def slotName (c : Config) (kind feature : String) : String := (c.rule kind).slotName feature

/-- The name of the feature that a slot of a kind becomes. -/
def featureName (c : Config) (kind slot : String) : String := (c.rule kind).featureName slot

/-- Whether a property of a kind is kept. -/
def admits (c : Config) (kind : String) (p : Property) : Bool := p.name ∉ (c.rule kind).ignored

/-- The type of a token to ignore, which the vocabulary has to know. -/
def typeOfIgnored (v : Vocabulary) (name : String) : Except Error Int :=
  match v.type? name with
  | some type => .ok type
  | none => .error (.unknownToken name)

/-- The types of the tokens to ignore, ascending. -/
def ignoredTypes (c : Config) (v : Vocabulary) : Except Error (List Int) := do
  let types ← c.ignoredTokens.toList.mapM (typeOfIgnored v)
  return types.eraseDups.mergeSort

end Config

end TreeSchema
