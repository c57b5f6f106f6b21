/-
The vocabulary of a grammar: token names and their numeric types.

A definition is entered in both directions at once, each overruling what stood there
for the same name or the same type.  The end of the input is known from the start.
-/
import TreeSchema.FinMap

namespace TreeSchema

/-- The type of the token that ends the input. -/
def endOfInput : Int := -1

/-- Token names and token types, looked up in either direction. -/
structure Vocabulary where
  types : FinMap String Int
  names : FinMap Int String
  deriving DecidableEq

namespace Vocabulary

/-- Makes `name` the name of `type` and `type` the type of `name`. -/
def define (v : Vocabulary) (name : String) (type : Int) : Vocabulary :=
  ⟨v.types.insert name type, v.names.insert type name⟩

/-- The vocabulary that knows only the end of the input. -/
def initial : Vocabulary := define ⟨∅, ∅⟩ "EOF" endOfInput

def type? (v : Vocabulary) (name : String) : Option Int := v.types.find? name

def name? (v : Vocabulary) (type : Int) : Option String := v.names.find? type

/-- The number of names. -/
def size (v : Vocabulary) : Nat := v.types.size

/-- The initial vocabulary with the given definitions made one after the other. -/
def ofList (definitions : List (String × Int)) : Vocabulary :=
  definitions.foldl (fun v d => v.define d.1 d.2) initial

end Vocabulary

end TreeSchema
