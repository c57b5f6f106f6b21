/-
Source positions of nodes.

A node begins where its first token begins and ends just past its last token.  A node
without tokens lies before the token that follows it.
-/
import TreeSchema.Text.Cursor
import TreeSchema.Schema.Feature
import TreeSchema.Element.Value

namespace TreeSchema

namespace Token

/-- The line just past a token. -/
def endLine (t : Token) : Nat := t.line + Text.newlines t.text

/-- The column just past a token; the end of the input has no width. -/
def endColumn (t : Token) : Nat :=
  if t.isEnd then t.column
  else if Text.newlines t.text = 0 then t.column + t.text.length
  else Text.tailLength t.text

end Token

namespace Tree

/-- Whether some token below a node has text, going down at most `levels` nodes. -/
def hasTextWithin (t : Tree) : Nat → NodeId → Except Error Bool
  | levels, id => do
    let n ← t.node id
    match levels with
    | 0 => throw (.endlessWalk n.kind)
    | k + 1 => n.children.anyM fun
      | .token x => do
        let x ← t.token x
        return !x.isEnd && !x.text.isEmpty
      | .node c => t.hasTextWithin k c

/-- Whether some token below a node has text.  A path of more nodes than the tree has
comes back to one of them and has no end. -/
def hasText (t : Tree) (id : NodeId) : Except Error Bool := t.hasTextWithin t.nodes.size id

/-- Line and column just past a node whose first token is `first`. -/
def endOf (t : Tree) (id : NodeId) (first : Token) : Except Error (Nat × Nat) := do
  match ← t.lastToken id with
  | some last => return (last.endLine, last.endColumn)
  | none =>
    if ← t.hasText id then throw (.noLastToken (← t.kind id))
    else return (first.line, first.column)

/-- A source position of a node as a count. -/
def positionOf (t : Tree) (id : NodeId) (p : Position) : Except Error Nat := do
  match ← t.firstToken id with
  | none => throw (.noFirstToken (← t.kind id))
  | some first =>
    match p with
    | .startLine => return first.line
    | .startColumn => return first.column
    | .endLine => return (← t.endOf id first).1
    | .endColumn => return (← t.endOf id first).2

end Tree

end TreeSchema
