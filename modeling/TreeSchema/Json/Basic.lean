/-
JSON values and the reading of records, variants and maps from them.

A record may hold fields that nobody asks for, but a field that is asked for may not
occur twice; in a map the last of equal keys counts.  A value of finitely many
variants is written as the name of the variant or as an object with that one key.
-/
import TreeSchema.FinMap
import TreeSchema.Word
import TreeSchema.Decimal

namespace TreeSchema

/-- A JSON value. -/
inductive Json where
  | null
  | bool (b : Bool)
  /-- A number written as an integer. -/
  | int (n : Int)
  /-- A number written with a fraction, an exponent or a negative zero: no integer. -/
  | decimal (text : String)
  | str (text : String)
  | arr (items : List Json)
  | obj (fields : List (String × Json))
  /-- A value that can be skipped but not read: a string with half of a surrogate pair in
  it, or an object that has such a string for a key. -/
  | garbled

namespace Json

/-- An absent value is written as null. -/
def ofOption {α : Type} (write : α → Json) : Option α → Json
  | none => null
  | some a => write a

/-- A list is written as an array. -/
def ofList {α : Type} (write : α → Json) (as : List α) : Json := arr (as.map write)

/-- A map is written as an object. -/
def ofMap {α : Type} (write : α → Json) (m : FinMap String α) : Json :=
  obj (m.entries.map fun e => (e.1, write e.2))

def ofNat (n : Nat) : Json := int n

def bool? : Json → Option Bool
  | bool b => some b
  | _ => none

def text? : Json → Option String
  | str s => some s
  | _ => none

def int? : Json → Option Int
  | int n => some n
  | _ => none

/-- A natural number of at most `bits` binary digits. -/
def unsigned? (bits : Nat) (j : Json) : Option Nat :=
  (j.int?.filter (Word.isUnsigned bits)).map Int.toNat

/-- An integer of at most `bits` binary digits and a sign. -/
def signed? (bits : Nat) (j : Json) : Option Int := j.int?.filter (Word.isSigned bits)

/-- An identifier: a natural number of 32 bits. -/
def id? (j : Json) : Option Nat := j.unsigned? 32

/-- A count or an offset: a natural number of 64 bits. -/
def size? (j : Json) : Option Nat := j.unsigned? 64

/-- A token type: an integer of 32 bits, one of them the sign. -/
def tokenType? (j : Json) : Option Int := j.signed? 31

/-- A value that may be null. -/
def optional? {α : Type} (read? : Json → Option α) : Json → Option (Option α)
  | null => some none
  | j => (read? j).map some

/-- An array of values of one form. -/
def list? {α : Type} (read? : Json → Option α) : Json → Option (List α)
  | arr items => items.mapM read?
  | _ => none

/-- An object as a map; the last of equal keys counts. -/
def map? {α : Type} (read? : Json → Option α) : Json → Option (FinMap String α)
  | obj fields => (fields.mapM fun f => (read? f.2).map (f.1, ·)).map FinMap.ofList
  | _ => none

/-- The fields of an object in which none of the names in `known` occurs twice. -/
def record? (known : List String) : Json → Option (List (String × Json))
  | obj fields => if known.all (fun n => fields.countP (·.1 = n) ≤ 1) then some fields else none
  | _ => none

/-- A field that has to be there. -/
def field? {α : Type} (fields : List (String × Json)) (name : String)
    (read? : Json → Option α) : Option α :=
  (fields.lookup name).bind read?

/-- A field that stands for `absent` where it is left out. -/
def fieldD? {α : Type} (fields : List (String × Json)) (name : String) (absent : α)
    (read? : Json → Option α) : Option α :=
  match fields.lookup name with
  | none => some absent
  | some j => read? j

/-- A field that may be left out or null. -/
def fieldOpt? {α : Type} (fields : List (String × Json)) (name : String)
    (read? : Json → Option α) : Option (Option α) :=
  fieldD? fields name none (optional? read?)

/-- A variant without content: its name, or an object from its name to null. -/
def variant? : Json → Option String
  | str name => some name
  | obj [(name, null)] => some name
  | _ => none

/-- A variant with content: an object from its name to the content. -/
def tagged? : Json → Option (String × Json)
  | obj [(name, content)] => some (name, content)
  | _ => none

/-- Whether the value can be kept for later: every string in it is readable, every number
within range and the nesting not above `depth`. -/
def isKeepable : Nat → Json → Bool
  | _, garbled => false
  | _, int n => (Decimal.ofLiteral n.natAbs.repr.toList).isFinite
  | _, decimal text => (Decimal.ofLiteral text.toList).isFinite
  | 0, arr _ => false
  | 0, obj _ => false
  | d + 1, arr items => items.all (isKeepable d)
  | d + 1, obj fields => fields.all fun f => isKeepable d f.2
  | _, _ => true

/-- A record that holds a variant in two fields, the tag and the content.  A content that
comes before its tag has to be kept until the tag is there, for which it may nest 126
levels deep. -/
def labelled? (tag content : String) (j : Json) : Option (String × Json) := do
  let fields ← j.record? [tag, content]
  let name ← field? fields tag variant?
  let value ← fields.lookup content
  let early := (fields.find? fun f => f.1 = tag || f.1 = content).any (·.1 = content)
  if early && !value.isKeepable 126 then none else some (name, value)

end Json

end TreeSchema
