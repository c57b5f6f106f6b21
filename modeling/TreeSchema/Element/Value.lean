/-
Values read from mapped elements.

A value is a computed scalar or stands for a stretch of source: a token, or a whole
node that is treated as one.
-/
import TreeSchema.Tree.Json

namespace TreeSchema

/-- A stretch of source as a scalar: its text and where it stands. -/
structure TokenValue where
  text : String
  /-- The token type, absent if the value stands for a whole node. -/
  type : Option Int
  line : Nat
  column : Nat
  span : Option Span
  deriving DecidableEq

/-- The value of a property. -/
inductive Value where
  | bool (b : Bool)
  | int (n : Int)
  | string (s : String)
  | token (t : TokenValue)
  deriving DecidableEq

/-- A token as a value. -/
def TokenValue.ofToken (t : Token) : TokenValue :=
  ⟨t.text, some t.type, t.line, t.column, some t.span⟩

/-- A whole node as a value. -/
def Tree.nodeValue (t : Tree) (id : NodeId) : Except Error TokenValue := do
  let (line, column) := match ← t.firstToken id with
    | some first => (first.line, first.column)
    | none => (0, 0)
  return ⟨← t.text id, none, line, column, ← t.nodeSpan id⟩

/-- A child as a value. -/
def Tree.childValue (t : Tree) : Child → Except Error Value
  | .token id => do return .token (.ofToken (← t.token id))
  | .node id => do return .token (← t.nodeValue id)

namespace Value

/-- A count as an integer value; those of 64 binary digits come out negative. -/
def ofNat (n : Nat) : Value := .int (Word.wrap n)

def typeName : Value → String
  | bool _ => "BOOLEAN"
  | int _ => "INTEGER"
  | string _ => "STRING"
  | token _ => "TOKEN"

def int? : Value → Option Int
  | int n => some n
  | _ => none

def bool? : Value → Option Bool
  | bool b => some b
  | _ => none

/-- The text of a string or a token. -/
def text? : Value → Option String
  | string s => some s
  | token t => some t.text
  | _ => none

def token? : Value → Option TokenValue
  | token t => some t
  | _ => none

/-- The stretch of source behind a value. -/
def span? : Value → Option Span
  | token t => t.span
  | _ => none

/-- The text that a value is shown as. -/
def display : Value → String
  | bool b => if b then "true" else "false"
  | int n => toString n
  | string s => s
  | token t => t.text

end Value

/-! ### The written form of values -/

open Json

def TokenValue.toJson (t : TokenValue) : Json :=
  obj [("text", str t.text), ("token_type", ofOption Json.int t.type), ("line", Json.ofNat t.line),
    ("column", Json.ofNat t.column), ("span", ofOption Span.toJson t.span)]

def TokenValue.ofJson? (j : Json) : Option TokenValue := do
  let fs ← j.record? ["text", "token_type", "line", "column", "span"]
  return ⟨← field? fs "text" Json.text?, ← fieldOpt? fs "token_type" tokenType?,
    ← field? fs "line" size?, ← field? fs "column" size?, ← fieldOpt? fs "span" Span.ofJson?⟩

namespace Value

def toJson : Value → Json
  | bool b => obj [("type", str "Bool"), ("value", Json.bool b)]
  | int n => obj [("type", str "Int"), ("value", Json.int n)]
  | string s => obj [("type", str "String"), ("value", str s)]
  | token t => obj [("type", str "Token"), ("value", t.toJson)]

def ofJson? (j : Json) : Option Value := do
  let (type, content) ← j.labelled? "type" "value"
  match type with
  | "Bool" => content.bool?.map .bool
  | "Int" => (content.signed? 63).map .int
  | "String" => content.text?.map .string
  | "Token" => (TokenValue.ofJson? content).map .token
  | _ => none

/-- The value that a text describes. -/
def read? (text : String) : Option Value := (Json.read? text).bind ofJson?

end Value

end TreeSchema
