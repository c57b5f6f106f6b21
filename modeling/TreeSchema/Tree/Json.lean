/-
The written form of parse trees.

Identifiers are taken as they are written, whether or not the tree holds what they
refer to.
-/
import TreeSchema.Json.Reader
import TreeSchema.Json.Writer
import TreeSchema.Tree.Basic

namespace TreeSchema

open Json

def Span.toJson (s : Span) : Json := obj [("start", ofNat s.start), ("end", ofNat s.stop)]

def Span.ofJson? (j : Json) : Option Span := do
  let fs ← j.record? ["start", "end"]
  return ⟨← field? fs "start" size?, ← field? fs "end" size?⟩

def NodeId.toJson (id : NodeId) : Json := ofNat id.index

def NodeId.ofJson? (j : Json) : Option NodeId := j.id?.map .mk

def TokenId.toJson (id : TokenId) : Json := ofNat id.index

def TokenId.ofJson? (j : Json) : Option TokenId := j.id?.map .mk

def Token.toJson (t : Token) : Json :=
  obj [("token_type", int t.type), ("text", str t.text), ("line", ofNat t.line),
    ("column", ofNat t.column), ("start", ofNat t.start), ("end", ofNat t.stop),
    ("index", ofNat t.index)]

def Token.ofJson? (j : Json) : Option Token := do
  let fs ← j.record? ["token_type", "text", "line", "column", "start", "end", "index"]
  return ⟨← field? fs "token_type" tokenType?, ← field? fs "text" text?, ← field? fs "line" size?,
    ← field? fs "column" size?, ← field? fs "start" size?, ← field? fs "end" size?,
    ← field? fs "index" size?⟩

def Child.toJson : Child → Json
  | .node id => obj [("Node", id.toJson)]
  | .token id => obj [("Token", id.toJson)]

def Child.ofJson? (j : Json) : Option Child := do
  match ← j.tagged? with
  | ("Node", id) => (NodeId.ofJson? id).map .node
  | ("Token", id) => (TokenId.ofJson? id).map .token
  | _ => none

def Binding.toJson : Binding → Json
  | .one c => obj [("One", c.toJson)]
  | .many cs => obj [("Many", ofList Child.toJson cs)]

def Binding.ofJson? (j : Json) : Option Binding := do
  match ← j.tagged? with
  | ("One", c) => (Child.ofJson? c).map .one
  | ("Many", cs) => (cs.list? Child.ofJson?).map .many
  | _ => none

def Node.toJson (n : Node) : Json :=
  obj [("kind", str n.kind), ("parent", ofOption NodeId.toJson n.parent),
    ("children", ofList Child.toJson n.children), ("start", ofOption TokenId.toJson n.start),
    ("stop", ofOption TokenId.toJson n.stop), ("bindings", ofMap Binding.toJson n.bindings)]

def Node.ofJson? (j : Json) : Option Node := do
  let fs ← j.record? ["kind", "parent", "children", "start", "stop", "bindings"]
  return ⟨← field? fs "kind" text?, ← fieldOpt? fs "parent" NodeId.ofJson?,
    ← field? fs "children" (list? Child.ofJson?), ← fieldOpt? fs "start" TokenId.ofJson?,
    ← fieldOpt? fs "stop" TokenId.ofJson?, ← field? fs "bindings" (map? Binding.ofJson?)⟩

namespace Tree

def toJson (t : Tree) : Json :=
  obj [("nodes", ofList Node.toJson t.nodes.toList),
    ("tokens", ofList Token.toJson t.tokens.toList),
    ("root", ofOption NodeId.toJson t.root)]

def ofJson? (j : Json) : Option Tree := do
  let fs ← j.record? ["nodes", "tokens", "root"]
  return ⟨(← field? fs "nodes" (list? Node.ofJson?)).toArray,
    (← field? fs "tokens" (list? Token.ofJson?)).toArray, ← fieldOpt? fs "root" NodeId.ofJson?⟩

/-- The text of a tree. -/
def render (t : Tree) : String := t.toJson.render

/-- The tree that a text describes. -/
def read? (text : String) : Option Tree := (Json.read? text).bind ofJson?

end Tree

end TreeSchema
