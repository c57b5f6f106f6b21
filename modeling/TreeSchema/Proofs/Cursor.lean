/-
Lines and columns of places in a text.

A cursor is moved along a text character by character.  Where it ends up can be said at once:
its offset is the size of the text, its line is counted by the line feeds, and its column by the
characters after the last of them.  So a cursor that started at the beginning says of every
offset that it passes which line and which column of the text it is.
-/
import Mathlib.Data.List.Induction
import Mathlib.Data.List.TakeWhile
import TreeSchema.Text.Cursor

namespace TreeSchema.Text

/-! ### The place at an offset -/

/-- The characters that end at most `offset` bytes in. -/
def upTo : Nat → List Char → List Char
  | _, [] => []
  | offset, c :: cs =>
    if c.utf8Size ≤ offset then c :: upTo (offset - c.utf8Size) cs else []

/-- The part of a text before an offset. -/
def before (text : String) (offset : Nat) : String := .ofList (upTo offset text.toList)

/-- The line of an offset in a text, counted from one. -/
def lineAt (text : String) (offset : Nat) : Nat := 1 + newlines (before text offset)

/-- The column of an offset in a text: the number of characters since its line began. -/
def columnAt (text : String) (offset : Nat) : Nat := tailLength (before text offset)

variable {s t : String}

theorem utf8ByteSize_ofList_cons (c : Char) (cs : List Char) :
    (String.ofList (c :: cs)).utf8ByteSize = c.utf8Size + (String.ofList cs).utf8ByteSize := by
  have hsplit : String.ofList (c :: cs) = String.singleton c ++ String.ofList cs := by
    rw [String.singleton_eq_ofList, ← String.ofList_append]
    rfl
  rw [hsplit, String.utf8ByteSize_append, String.utf8ByteSize_singleton]

theorem upTo_append (cs ds : List Char) :
    upTo (String.ofList cs).utf8ByteSize (cs ++ ds) = cs := by
  induction cs with
  | nil =>
      cases ds with
      | nil => rfl
      | cons d ds =>
          have := d.utf8Size_pos
          simp [upTo]
          omega
  | cons c cs ih =>
      rw [utf8ByteSize_ofList_cons]
      simp [upTo, ih]

/-- What is before the end of a part that a text begins with is that part. -/
theorem before_append : before (s ++ t) s.utf8ByteSize = s := by
  have h := upTo_append s.toList t.toList
  rw [String.ofList_toList] at h
  rw [before, String.toList_append, h, String.ofList_toList]

theorem lineAt_append : lineAt (s ++ t) s.utf8ByteSize = 1 + newlines s := by
  rw [lineAt, before_append]

theorem columnAt_append : columnAt (s ++ t) s.utf8ByteSize = tailLength s := by
  rw [columnAt, before_append]

/-! ### Moving along a text -/

/-- The column after more characters. -/
def columnAfter (column : Nat) (text : String) : Nat :=
  if newlines text = 0 then column + text.length else tailLength text

theorem foldl_next (p : Cursor) (cs : List Char) :
    cs.foldl Cursor.next p =
      ⟨p.offset + (String.ofList cs).utf8ByteSize, p.line + newlines (.ofList cs),
        columnAfter p.column (.ofList cs)⟩ := by
  induction cs using List.reverseRecOn with
  | nil => simp [newlines, columnAfter]
  | append_singleton cs c ih =>
      have hsize : (String.ofList [c]).utf8ByteSize = c.utf8Size := by
        rw [← String.singleton_eq_ofList, String.utf8ByteSize_singleton]
      rw [List.foldl_append, ih, String.ofList_append, String.utf8ByteSize_append, hsize]
      by_cases hc : c = '\n'
      · simp [Cursor.next, hc, newlines, columnAfter, tailLength]
        omega
      · simp [Cursor.next, hc, newlines, columnAfter, tailLength]
        split <;> omega

theorem advance_eq (p : Cursor) (text : String) :
    p.advance text =
      ⟨p.offset + text.utf8ByteSize, p.line + newlines text, columnAfter p.column text⟩ := by
  rw [Cursor.advance, foldl_next, String.ofList_toList]

theorem advance_append (p : Cursor) : p.advance (s ++ t) = (p.advance s).advance t := by
  simp [Cursor.advance]

theorem tailLength_eq_length (h : newlines s = 0) : tailLength s = s.length := by
  have hmem : '\n' ∉ s.toList := List.count_eq_zero.mp h
  have hall : s.toList.reverse.takeWhile (· ≠ '\n') = s.toList.reverse := by
    rw [List.takeWhile_eq_self_iff]
    intro c hc
    refine decide_eq_true ?_
    rintro rfl
    exact hmem (List.mem_reverse.mp hc)
  rw [tailLength, hall, List.length_reverse, String.length_toList]

/-- A cursor that has passed a text from its beginning. -/
theorem advance_start (text : String) :
    Cursor.start.advance text = ⟨text.utf8ByteSize, 1 + newlines text, tailLength text⟩ := by
  rw [advance_eq]
  by_cases hnone : newlines text = 0
  · simp [Cursor.start, columnAfter, hnone, tailLength_eq_length hnone]
  · simp [Cursor.start, columnAfter, hnone]

end TreeSchema.Text
