/-
Walking elements.

`View.visit` shows the elements below an element to a visitor, parents before children
and children in order, and fails when it gets deeper than the configuration allows.
The visitor has a state of its own, which what it has seen so far stays in even if the
walk fails.  It gets to the schema as well, so it can ask for entities and for other
elements before the walk goes on.
-/
import TreeSchema.Text.Quoted
import TreeSchema.Element.Reading

namespace TreeSchema

/-- A walk with a visitor whose state is of type `σ`. -/
abbrev Visiting (σ : Type) := EStateM Error (Schema × σ)

/-- Runs a request to the schema during a walk. -/
def Visiting.onSchema {σ α : Type} (request : Deriving α) : Visiting σ α := fun (s, seen) =>
  match request s with
  | .ok a s => .ok a (s, seen)
  | .error e s => .error e (s, seen)

namespace View

variable {σ : Type}

/-- Shows what is below an element, at most `levels` deep. -/
def walk (v : View) (visitor : Element → Visiting σ Unit) : Nat → Element → Visiting σ Unit
  | 0, e => do
    let children ← Visiting.onSchema (v.allChildren e)
    if !children.isEmpty then throw (.tooDeep v.blueprint.config.maxDepth)
  | n + 1, e => do
    let children ← Visiting.onSchema (v.allChildren e)
    children.forM fun c => do
      visitor c
      v.walk visitor n c

/-- Shows an element, if `includeSelf` is set, and all below it. -/
def visit (v : View) (visitor : Element → Visiting σ Unit) (includeSelf : Bool) (e : Element) :
    Visiting σ Unit := do
  if includeSelf then visitor e
  v.walk visitor v.blueprint.config.maxDepth e

end View

namespace Element

/-- The nearest element above whose entity is `entity` or derives from it. -/
def findAncestor (s : Schema) (e : Element) (entity : EntityId) : Option Element :=
  e.ancestors.find? fun a => entity ∈ s.ancestry a.entity

/-- An element as it is shown in diagnostics. -/
def describe (e : Element) (kind : String) : String :=
  let parent := match e.above with
    | [] => "None"
    | p :: _ => s!"Some(NodeId({p.node.index}))"
  "Element \x7b kind: " ++ Text.quote kind ++ s!", node: NodeId({e.node.index})" ++
    s!", entity: EntityId({e.entity.index}), parent: {parent} \x7d"

end Element

end TreeSchema
