/-
Concrete parse trees.

Nodes and tokens lie in two arrays and refer to each other by number.  A tree that a
front end hands over may hold numbers that denote nothing; every look-up says so.
The text and the span of a node are read off the range of tokens that it covers.
-/
import TreeSchema.FinMap
import TreeSchema.Error
import TreeSchema.Grammar.Vocabulary

namespace TreeSchema

/-- A half-open stretch of source, in byte offsets. -/
structure Span where
  start : Nat
  stop : Nat
  deriving DecidableEq

namespace Span

def length (s : Span) : Nat := s.stop - s.start

def isEmpty (s : Span) : Bool := s.stop ≤ s.start

/-- Whether a stretch begins later than another. -/
def startsAfter (s t : Span) : Bool := t.start < s.start

end Span

/-- The number of a node in its tree. -/
structure NodeId where
  index : Nat
  deriving DecidableEq

/-- The number of a token in its tree. -/
structure TokenId where
  index : Nat
  deriving DecidableEq

/-- A terminal and where it stands: lines count from one, columns in characters from zero,
offsets in bytes. -/
structure Token where
  type : Int
  text : String
  line : Nat
  column : Nat
  start : Nat
  stop : Nat
  /-- The place in the stream of tokens. -/
  index : Nat
  deriving DecidableEq

namespace Token

def isEnd (t : Token) : Bool := t.type = endOfInput

def span (t : Token) : Span := ⟨t.start, t.stop⟩

end Token

/-- A child of a node. -/
inductive Child where
  | node (id : NodeId)
  | token (id : TokenId)
  deriving DecidableEq

/-- What a node bound to a label. -/
inductive Binding where
  | one (child : Child)
  | many (children : List Child)
  deriving DecidableEq

/-- A node of a parse tree. -/
structure Node where
  kind : String
  parent : Option NodeId
  children : List Child
  /-- The first token of the node, or the one that follows it if the node has none. -/
  start : Option TokenId
  /-- The last token of the node. -/
  stop : Option TokenId
  bindings : FinMap String Binding
  deriving DecidableEq

/-- A parse tree: its nodes and the stream of tokens that they cover. -/
structure Tree where
  nodes : Array Node
  tokens : Array Token
  root : Option NodeId
  deriving DecidableEq

namespace Tree

/-- The tree without nodes. -/
def empty : Tree := ⟨#[], #[], none⟩

def node? (t : Tree) (id : NodeId) : Option Node := t.nodes[id.index]?

def token? (t : Tree) (id : TokenId) : Option Token := t.tokens[id.index]?

/-- The node of the given number, which has to be there. -/
def node (t : Tree) (id : NodeId) : Except Error Node :=
  match t.node? id with
  | some n => .ok n
  | none => .error (.noNode id.index)

/-- The token of the given number, which has to be there. -/
def token (t : Tree) (id : TokenId) : Except Error Token :=
  match t.token? id with
  | some x => .ok x
  | none => .error (.noToken id.index)

/-- The kind of a node. -/
def kind (t : Tree) (id : NodeId) : Except Error String := Node.kind <$> t.node id

/-- The token of the given number, if a number is given. -/
def optToken (t : Tree) (id : Option TokenId) : Except Error (Option Token) := id.mapM t.token

def firstToken (t : Tree) (id : NodeId) : Except Error (Option Token) := do
  t.optToken (← t.node id).start

def lastToken (t : Tree) (id : NodeId) : Except Error (Option Token) := do
  t.optToken (← t.node id).stop

/-- The tokens from `start` to `stop`, both included. -/
def tokensBetween (t : Tree) (start stop : TokenId) : Except Error (List Token) :=
  if stop.index < start.index then .ok []
  else if stop.index < t.tokens.size then
    .ok (t.tokens.extract start.index (stop.index + 1)).toList
  else .error (.noToken stop.index)

/-- The texts of tokens in a row, the end of the input apart. -/
def joinedText (ts : List Token) : String :=
  String.join ((ts.filter (!·.isEnd)).map Token.text)

/-- The text of a node. -/
def text (t : Tree) (id : NodeId) : Except Error String := do
  let n ← t.node id
  match n.start, n.stop with
  | some start, some stop => return joinedText (← t.tokensBetween start stop)
  | _, _ => return ""

/-- The span of a node.  A node without tokens has an empty one before the token that
follows it. -/
def nodeSpan (t : Tree) (id : NodeId) : Except Error (Option Span) := do
  match ← t.firstToken id with
  | none => return none
  | some first =>
    match ← t.lastToken id with
    | some last => return some ⟨first.start, max last.stop first.start⟩
    | none => return some ⟨first.start, first.start⟩

def childSpan (t : Tree) : Child → Except Error (Option Span)
  | .node id => t.nodeSpan id
  | .token id => do return some (← t.token id).span

end Tree

end TreeSchema
