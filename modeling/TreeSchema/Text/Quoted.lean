/-
Quoted text for diagnostics.

A text is written between double quotes; a quote, a backslash and the control
characters of ASCII are escaped, the common ones by a letter and the others by their
number in hexadecimal.
-/

namespace TreeSchema.Text

/-- One character as it stands between the quotes. -/
def escape (c : Char) : String :=
  match c with
  | '"' => "\\\""
  | '\\' => "\\\\"
  | '\n' => "\\n"
  | '\r' => "\\r"
  | '\t' => "\\t"
  | '\x00' => "\\0"
  | c =>
    if c.toNat < 0x20 || c.toNat = 0x7F then
      "\\u\x7b" ++ String.ofList (Nat.toDigits 16 c.toNat) ++ "\x7d"
    else String.singleton c

/-- A text between quotes. -/
def quote (text : String) : String := "\"" ++ String.join (text.toList.map escape) ++ "\""

end TreeSchema.Text
