/-
Writing JSON texts.

Values are written without blanks.  In strings only the quote, the backslash and the
control characters below U+0020 are escaped.
-/
import TreeSchema.Json.Basic

namespace TreeSchema.Json

def hexDigit (n : Nat) : Char := if n < 10 then Char.ofNat (48 + n) else Char.ofNat (87 + n)

/-- Appends one character of a string. -/
def writeChar (out : String) (c : Char) : String :=
  match c with
  | '"' => out ++ "\\\""
  | '\\' => out ++ "\\\\"
  | '\n' => out ++ "\\n"
  | '\r' => out ++ "\\r"
  | '\t' => out ++ "\\t"
  | '\x08' => out ++ "\\b"
  | '\x0c' => out ++ "\\f"
  | c =>
    if c.toNat < 0x20 then
      ((out ++ "\\u00").push (hexDigit (c.toNat / 16))).push (hexDigit (c.toNat % 16))
    else out.push c

/-- Appends a string with its quotes. -/
def writeString (out text : String) : String :=
  (text.toList.foldl writeChar (out.push '"')).push '"'

mutual

/-- Appends the text of a value to `out`. -/
def write (out : String) : Json → String
  | null => out ++ "null"
  | bool b => out ++ if b then "true" else "false"
  | int n => out ++ toString n
  | decimal text => out ++ text
  | str text => writeString out text
  | arr items => (writeItems (out.push '[') items).push ']'
  | obj fields => (writeFields (out.push '\x7b') fields).push '\x7d'
  | garbled => out ++ "null"

/-- Appends values with commas between them. -/
def writeItems (out : String) : List Json → String
  | [] => out
  | [j] => write out j
  | j :: js => writeItems ((write out j).push ',') js

/-- Appends fields with commas between them. -/
def writeFields (out : String) : List (String × Json) → String
  | [] => out
  | [(k, j)] => write ((writeString out k).push ':') j
  | (k, j) :: fs => writeFields ((write ((writeString out k).push ':') j).push ',') fs

end

/-- The text of a value. -/
def render (j : Json) : String := write "" j

end TreeSchema.Json
