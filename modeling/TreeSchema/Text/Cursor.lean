/-
Where a reader of a text stands.

A cursor counts lines from one, columns in characters from zero and offsets in UTF-8
bytes from zero.  Only a line feed ends a line.
-/

namespace TreeSchema.Text

/-- A place in a text. -/
structure Cursor where
  offset : Nat
  line : Nat
  column : Nat
  deriving DecidableEq

namespace Cursor

/-- The beginning of a text. -/
def start : Cursor := ⟨0, 1, 0⟩

/-- The place after one more character. -/
def next (p : Cursor) (c : Char) : Cursor :=
  if c = '\n' then ⟨p.offset + c.utf8Size, p.line + 1, 0⟩
  else ⟨p.offset + c.utf8Size, p.line, p.column + 1⟩

/-- The place after `text`. -/
def advance (p : Cursor) (text : String) : Cursor := text.toList.foldl next p

end Cursor

/-- The number of line feeds in a text. -/
def newlines (text : String) : Nat := text.toList.count '\n'

/-- The number of characters after the last line feed, or in all where there is none. -/
def tailLength (text : String) : Nat := (text.toList.reverse.takeWhile (· ≠ '\n')).length

end TreeSchema.Text
