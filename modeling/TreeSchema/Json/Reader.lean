/-
Reading JSON texts.

A text is first cut into lexemes and the lexemes are then assembled with a stack of
open arrays and objects.  Both passes go through their input once and keep no other
memory, so a text of any length and nesting is read.  The grammar is the strict one:
no comments, no trailing commas, no leading zeros or plus signs, no control character
inside a string and nothing but blanks around the value.
-/
import TreeSchema.Json.Basic

namespace TreeSchema.Json

/-! ### Lexemes -/

/-- A bracket, brace, colon or comma, or a value without parts. -/
inductive Lexeme where
  | mark (c : Char)
  | atom (j : Json)

def isBlank (c : Char) : Bool := c = ' ' || c = '\n' || c = '\t' || c = '\r'

def isMark (c : Char) : Bool :=
  c = '[' || c = ']' || c = '\x7b' || c = '\x7d' || c = ':' || c = ','

/-- The scalars that a row of units spells, a unit being a scalar or half of a surrogate
pair; a half without its other half spells nothing. -/
def spell : List Nat → Option (List Char)
  | [] => some []
  | u :: us =>
    if 0xDC00 ≤ u ∧ u < 0xE000 then none
    else if 0xD800 ≤ u ∧ u < 0xDC00 then
      match us with
      | [] => none
      | v :: vs =>
        if 0xDC00 ≤ v ∧ v < 0xE000 then
          (spell vs).map (Char.ofNat (0x10000 + (u - 0xD800) * 0x400 + (v - 0xDC00)) :: ·)
        else none
    else (spell us).map (Char.ofNat u :: ·)

/-- The string whose units, last first, are `units`. -/
def stringOf (units : List Nat) : Json :=
  match spell units.reverse with
  | some cs => .str (String.ofList cs)
  | none => .garbled

def digitValue? (c : Char) : Option Nat :=
  if c.isDigit then some (c.toNat - '0'.toNat)
  else if 'a' ≤ c ∧ c ≤ 'f' then some (c.toNat - 'a'.toNat + 10)
  else if 'A' ≤ c ∧ c ≤ 'F' then some (c.toNat - 'A'.toNat + 10)
  else none

/-- Whether `cs` is empty or an exponent. -/
def isExponent : List Char → Bool
  | [] => true
  | e :: cs =>
    let digits := match cs with
      | '+' :: ds => ds
      | '-' :: ds => ds
      | ds => ds
    (e = 'e' || e = 'E') && !digits.isEmpty && digits.all Char.isDigit

/-- Whether `cs` is what may follow the integral part of a number. -/
def isFraction : List Char → Bool
  | '.' :: cs => !(cs.takeWhile Char.isDigit).isEmpty && isExponent (cs.dropWhile Char.isDigit)
  | cs => isExponent cs

/-- The number that a word denotes. -/
def number? (word : List Char) : Option Json :=
  let (negative, cs) := match word with
    | '-' :: cs => (true, cs)
    | cs => (false, cs)
  let digits := cs.takeWhile Char.isDigit
  let rest := cs.dropWhile Char.isDigit
  if digits.isEmpty || (digits.length > 1 && digits.head? = some '0') || !isFraction rest then none
  else
    let n := natOfDigits digits
    if !rest.isEmpty || (negative && n = 0) then some (.decimal (String.ofList word))
    else some (.int (if negative then -(n : Int) else n))

/-- The value that a word outside of strings denotes. -/
def word? (word : List Char) : Option Json :=
  match String.ofList word with
  | "null" => some .null
  | "true" => some (.bool true)
  | "false" => some (.bool false)
  | _ => number? word

/-- Where the cutting of a text stands. -/
inductive Scan where
  | between
  /-- In a word whose letters so far, last first, are given. -/
  | word (letters : List Char)
  /-- In a string whose units so far, last first, are given. -/
  | string (units : List Nat)
  | escape (units : List Nat)
  /-- In an escape by number, with the value of the digits so far and their count to come. -/
  | numeric (units : List Nat) (value : Nat) (missing : Nat)

/-- The character that an escape by letter stands for. -/
def escaped? : Char → Option Char
  | '"' => some '"'
  | '\\' => some '\\'
  | '/' => some '/'
  | 'b' => some '\x08'
  | 'f' => some '\x0c'
  | 'n' => some '\n'
  | 'r' => some '\r'
  | 't' => some '\t'
  | _ => none

/-- One character outside of words and strings. -/
def scanBetween (done : List Lexeme) (c : Char) : List Lexeme × Scan :=
  if isBlank c then (done, .between)
  else if isMark c then (.mark c :: done, .between)
  else if c = '"' then (done, .string [])
  else (done, .word [c])

/-- One character; the finished lexemes come last first. -/
def scanStep (done : List Lexeme) (scan : Scan) (c : Char) : Option (List Lexeme × Scan) :=
  match scan with
  | .between => some (scanBetween done c)
  | .word letters =>
    if isBlank c || isMark c || c = '"' then
      (word? letters.reverse).map fun j => scanBetween (.atom j :: done) c
    else some (done, .word (c :: letters))
  | .string units =>
    if c = '"' then some (.atom (stringOf units) :: done, .between)
    else if c = '\\' then some (done, .escape units)
    else if c.toNat < 0x20 then none
    else some (done, .string (c.toNat :: units))
  | .escape units =>
    if c = 'u' then some (done, .numeric units 0 4)
    else (escaped? c).map fun d => (done, .string (d.toNat :: units))
  | .numeric units value missing => do
    let d ← digitValue? c
    let value := 16 * value + d
    if missing = 1 then some (done, .string (value :: units))
    else some (done, .numeric units value (missing - 1))

/-- The lexemes of a text. -/
def lexemes? (text : String) : Option (List Lexeme) := do
  let (done, scan) ← text.toList.foldlM (fun s c => scanStep s.1 s.2 c) ([], .between)
  match scan with
  | .between => some done.reverse
  | .word letters => (word? letters.reverse).map fun j => (.atom j :: done).reverse
  | _ => none

/-! ### Assembly -/

/-- An array or object that is still open; its parts come last first.  A garbled key
counts as no key. -/
inductive Frame where
  | array (items : List Json)
  | object (fields : List (Option String × Json)) (key : Option String)

/-- What the next lexeme may be. -/
inductive Stage where
  /-- The first part of what has just been opened, or its end. -/
  | opened
  | key
  | colon
  | value
  /-- A comma before the next part, or the end. -/
  | next
  /-- The whole value is there and nothing may follow. -/
  | finished (j : Json)

/-- Closes a frame. -/
def Frame.close : Frame → Json
  | .array items => .arr items.reverse
  | .object fields _ =>
    match fields.reverse.mapM fun f => f.1.map (·, f.2) with
    | some fs => .obj fs
    | none => .garbled

/-- Hands a complete value to the innermost open frame. -/
def complete (frames : List Frame) (j : Json) : List Frame × Stage :=
  match frames with
  | [] => ([], .finished j)
  | .array items :: rest => (.array (j :: items) :: rest, .next)
  | .object fields key :: rest => (.object ((key, j) :: fields) none :: rest, .next)

/-- A lexeme that begins a value. -/
def beginValue (frames : List Frame) : Lexeme → Option (List Frame × Stage)
  | .atom j => some (complete frames j)
  | .mark '[' => some (.array [] :: frames, .opened)
  | .mark '\x7b' => some (.object [] none :: frames, .opened)
  | .mark _ => none

/-- A lexeme that names a field. -/
def takeKey (fields : List (Option String × Json)) (rest : List Frame) :
    Lexeme → Option (List Frame × Stage)
  | .atom (.str k) => some (.object fields (some k) :: rest, .colon)
  | .atom .garbled => some (.object fields none :: rest, .colon)
  | _ => none

/-- One lexeme. -/
def assembleStep (frames : List Frame) (stage : Stage) (x : Lexeme) :
    Option (List Frame × Stage) :=
  match stage, frames, x with
  | .value, fs, x => beginValue fs x
  | .opened, f@(.array _) :: rest, .mark ']' => some (complete rest f.close)
  | .opened, fs@(.array _ :: _), x => beginValue fs x
  | .opened, f@(.object ..) :: rest, .mark '\x7d' => some (complete rest f.close)
  | .opened, .object fields _ :: rest, x => takeKey fields rest x
  | .key, .object fields _ :: rest, x => takeKey fields rest x
  | .colon, fs, .mark ':' => some (fs, .value)
  | .next, fs@(.array _ :: _), .mark ',' => some (fs, .value)
  | .next, f@(.array _) :: rest, .mark ']' => some (complete rest f.close)
  | .next, fs@(.object .. :: _), .mark ',' => some (fs, .key)
  | .next, f@(.object ..) :: rest, .mark '\x7d' => some (complete rest f.close)
  | _, _, _ => none

/-- The value that a text denotes, if the text is JSON. -/
def read? (text : String) : Option Json := do
  let xs ← lexemes? text
  match ← xs.foldlM (fun s x => assembleStep s.1 s.2 x) ([], .value) with
  | (_, .finished j) => some j
  | _ => none

end TreeSchema.Json
