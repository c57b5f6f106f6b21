/-
Building trees from events.

A front end reports what it sees in source order: a node begins or ends, a token or
some hidden text is read, a label is given to the child that comes next.  The builder
keeps the nodes that are open, where it stands in the text, and the closed nodes that
have no token yet and wait for the one that follows them.
-/
import TreeSchema.Text.Cursor
import TreeSchema.Tree.Basic

namespace TreeSchema

/-- A label for the child that comes next. -/
inductive Label where
  /-- Binds the name to the child. -/
  | assign (name : String)
  /-- Adds the child to the list under the name. -/
  | append (name : String)
  deriving DecidableEq

/-- What a front end reports. -/
inductive Event where
  | start (kind : String)
  | finish
  | label (l : Label)
  | token (type : Int) (text : String)
  /-- Text that belongs to no token. -/
  | hidden (text : String)
  deriving DecidableEq

/-- The end of the input, a token without text. -/
def Event.endOfInput : Event := .token TreeSchema.endOfInput ""

/-- Adds a child to what is bound to a name; a single child becomes the head of a list. -/
def Binding.append (c : Child) : Option Binding → Binding
  | none => .many [c]
  | some (.one first) => .many [first, c]
  | some (.many cs) => .many (cs ++ [c])

/-- Binds a child as a label says. -/
def Label.bind (l : Label) (c : Child) (bindings : FinMap String Binding) :
    FinMap String Binding :=
  match l with
  | .assign name => bindings.insert name (.one c)
  | .append name => bindings.insert name (.append c (bindings.find? name))

namespace Node

/-- A node that has just begun. -/
def opened (kind : String) (parent : Option NodeId) : Node := ⟨kind, parent, [], none, none, ∅⟩

/-- The node with one more child. -/
def attach (n : Node) (c : Child) (label : Option Label) : Node :=
  { n with
    children := n.children ++ [c]
    bindings := match label with
      | some l => l.bind c n.bindings
      | none => n.bindings }

/-- The node with its first token set to the one that follows it. -/
def startAt (n : Node) (id : TokenId) : Node := { n with start := some id }

/-- The node with one more token in it. -/
def cover (n : Node) (id : TokenId) : Node :=
  { n with start := n.start.or (some id), stop := some id }

end Node

namespace Tree

/-- The tree with `change` made to one node. -/
def modify (t : Tree) (id : NodeId) (change : Node → Node) : Tree :=
  { t with nodes := t.nodes.modify id.index change }

/-- The tree with `change` made to each of some nodes. -/
def modifyAll (t : Tree) (ids : List NodeId) (change : Node → Node) : Tree :=
  ids.foldl (fun t id => t.modify id change) t

end Tree

/-- A tree under construction. -/
structure Builder where
  tree : Tree
  /-- The open nodes, the innermost first. -/
  openNodes : List NodeId
  /-- Closed nodes without tokens that wait for the token after them. -/
  awaiting : List NodeId
  label : Option Label
  cursor : Text.Cursor
  /-- The kind of the first node that was begun at the top after the root. -/
  extraRoot : Option String
  deriving DecidableEq

namespace Builder

/-- The builder that has seen nothing. -/
def initial : Builder := ⟨.empty, [], [], none, .start, none⟩

/-- Adds a child to the innermost open node, under the label given to it.  Outside of all
nodes the label is lost. -/
def attach (b : Builder) (c : Child) : Builder :=
  let tree := match b.openNodes with
    | [] => b.tree
    | n :: _ => b.tree.modify n (·.attach c b.label)
  { b with tree := tree, label := none }

/-- The number that the next node gets. -/
def nextNode (b : Builder) : NodeId := ⟨b.tree.nodes.size⟩

/-- The number that the next token gets. -/
def nextToken (b : Builder) : TokenId := ⟨b.tree.tokens.size⟩

/-- Notes a node that begins outside of all nodes: the first is the root. -/
def noteTop (b : Builder) (kind : String) : Builder :=
  match b.tree.root with
  | none => { b with tree := { b.tree with root := some b.nextNode } }
  | some _ => { b with extraRoot := b.extraRoot.or (some kind) }

/-- Begins a node inside the innermost open one. -/
def start (b : Builder) (kind : String) : Builder :=
  let id := b.nextNode
  let b := if b.openNodes.isEmpty then b.noteTop kind else b
  let node := Node.opened kind b.openNodes.head?
  let b := { b with tree := { b.tree with nodes := b.tree.nodes.push node } }
  let b := b.attach (.node id)
  { b with openNodes := id :: b.openNodes }

/-- Ends the innermost open node. -/
def finish (b : Builder) : Except Error Builder :=
  match b.openNodes with
  | [] => .error .noOpenNode
  | n :: rest =>
    let waits := ((b.tree.node? n).bind Node.start).isNone
    .ok { b with openNodes := rest, awaiting := if waits then b.awaiting ++ [n] else b.awaiting }

/-- Reads text that belongs to no token. -/
def hidden (b : Builder) (text : String) : Builder :=
  { b with cursor := b.cursor.advance text }

/-- Reads a token: it starts the nodes that wait for it and extends those that are open. -/
def token (b : Builder) (type : Int) (text : String) : Builder :=
  let id := b.nextToken
  let stop := b.cursor.advance text
  let token : Token :=
    ⟨type, text, b.cursor.line, b.cursor.column, b.cursor.offset, stop.offset, id.index⟩
  let tree := { b.tree with tokens := b.tree.tokens.push token }
  let tree := tree.modifyAll b.awaiting (·.startAt id)
  let tree := tree.modifyAll b.openNodes (·.cover id)
  { b with tree := tree, cursor := stop, awaiting := [] }.attach (.token id)

/-- One event. -/
def step (b : Builder) : Event → Except Error Builder
  | .start kind => .ok (b.start kind)
  | .finish => b.finish
  | .label l => .ok { b with label := some l }
  | .token type text => .ok (b.token type text)
  | .hidden text => .ok (b.hidden text)

/-- One event; one that cannot be is passed over. -/
def feed (b : Builder) (e : Event) : Builder :=
  match b.step e with
  | .ok b' => b'
  | .error _ => b

/-- A row of events, up to the first that cannot be. -/
def run (b : Builder) (es : List Event) : Except Error Builder := es.foldlM step b

/-- The finished tree: every node has ended and there is one root at most. -/
def toTree (b : Builder) : Except Error Tree :=
  match b.openNodes with
  | n :: _ => do throw (.unfinishedNode (← b.tree.kind n))
  | [] =>
    match b.extraRoot with
    | some kind => .error (.secondRoot kind)
    | none => .ok b.tree

end Builder

/-- The tree that a row of events builds. -/
def Tree.ofEvents (es : List Event) : Except Error Tree := do (← Builder.initial.run es).toTree

end TreeSchema
