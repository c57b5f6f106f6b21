/-
The stream of tokens.

A builder is fed a text in pieces, some of which are tokens.  Its cursor is always where the
text that it was fed so far ends.  So each token stands in the whole text where it says, and the
tokens of the stream follow one another without overlap, with hidden text between them.
-/
import TreeSchema.Proofs.Cursor
import TreeSchema.Proofs.Feeding
import TreeSchema.Element.Position

namespace TreeSchema

open Text (Cursor lineAt columnAt newlines tailLength)

/-- The piece of text that an event reports. -/
def Event.text : Event → String
  | .token _ text => text
  | .hidden text => text
  | .start _ | .finish | .label _ => ""

/-- The whole text that a row of events reports. -/
def Event.source (events : List Event) : String := String.join (events.map Event.text)

theorem Event.source_concat (events : List Event) (e : Event) :
    Event.source (events ++ [e]) = Event.source events ++ e.text := by
  simp [Event.source]

/-! ### Tokens in a text -/

namespace Token

variable {x : Token} {text : String}

/-- A token stands in a text where it says: its own text is between its offsets, and these begin
on its line and in its column. -/
structure StandsIn (x : Token) (text : String) : Prop where
  split : ∃ s t, text = s ++ x.text ++ t ∧ x.start = s.utf8ByteSize ∧
    x.stop = (s ++ x.text).utf8ByteSize
  line : x.line = lineAt text x.start
  column : x.column = columnAt text x.start

namespace StandsIn

/-- A token read by a cursor that passed what is before it stands where the cursor says. -/
theorem of_cursor {s t : String} (hstart : Cursor.start.advance s = ⟨x.start, x.line, x.column⟩)
    (hstop : x.stop = (s ++ x.text).utf8ByteSize) : x.StandsIn (s ++ x.text ++ t) := by
  rw [Text.advance_start, Cursor.mk.injEq] at hstart
  obtain ⟨hoffset, hline, hcolumn⟩ := hstart
  refine ⟨⟨s, t, rfl, hoffset.symm, hstop⟩, ?_, ?_⟩
  · rw [← hline, ← hoffset, String.append_assoc, Text.lineAt_append]
  · rw [← hcolumn, ← hoffset, String.append_assoc, Text.columnAt_append]

variable (h : x.StandsIn text)

include h

theorem exists_cursor :
    ∃ s t, text = s ++ x.text ++ t ∧ Cursor.start.advance s = ⟨x.start, x.line, x.column⟩ ∧
      x.stop = (s ++ x.text).utf8ByteSize := by
  obtain ⟨⟨s, t, rfl, hstart, hstop⟩, hline, hcolumn⟩ := h
  refine ⟨s, t, rfl, ?_, hstop⟩
  rw [hline, hcolumn, hstart, String.append_assoc, Text.lineAt_append, Text.columnAt_append,
    Text.advance_start]

/-- More text after it leaves a token where it is. -/
theorem append (more : String) : x.StandsIn (text ++ more) := by
  obtain ⟨s, t, rfl, hstart, hstop⟩ := h.exists_cursor
  have hassoc : s ++ x.text ++ t ++ more = s ++ x.text ++ (t ++ more) := String.append_assoc
  rw [hassoc]
  exact of_cursor hstart hstop

theorem stop_eq : x.stop = x.start + x.text.utf8ByteSize := by
  obtain ⟨s, t, -, hstart, hstop⟩ := h.split
  rw [hstart, hstop, String.utf8ByteSize_append]

theorem stop_le : x.stop ≤ text.utf8ByteSize := by
  obtain ⟨s, t, rfl, -, hstop⟩ := h.split
  rw [hstop, String.utf8ByteSize_append (s := s ++ x.text)]
  omega

/-- The end of a token, counted from its beginning, is where the cursor is after it. -/
theorem cursor_stop : ∃ s t, text = s ++ t ∧ x.stop = s.utf8ByteSize ∧ x.endLine = 1 + newlines s ∧
    ((x.isEnd = true → x.text = "") → x.endColumn = tailLength s) := by
  obtain ⟨s, t, htext, hstart, hstop⟩ := h.exists_cursor
  refine ⟨s ++ x.text, t, htext, hstop, ?_, ?_⟩
  all_goals
    have hmoved := Text.advance_append (s := s) (t := x.text) Cursor.start
    rw [hstart, Text.advance_start, Text.advance_eq, Cursor.mk.injEq] at hmoved
    obtain ⟨-, hline, hcolumn⟩ := hmoved
  · exact hline.symm
  · intro hend
    rw [hcolumn, endColumn]
    by_cases hx : x.isEnd = true
    · simp [hx, hend hx, Text.columnAfter, newlines]
    · simp [hx, Text.columnAfter]

end StandsIn

end Token

/-! ### Reading a text -/

/-- The tokens of a tree stand in a text one after the other. -/
structure Tree.Streams (t : Tree) (text : String) : Prop where
  tokens : ∀ x ∈ t.tokens, x.StandsIn text
  ordered : t.tokens.toList.Pairwise fun x y => x.stop ≤ y.start

namespace Tree.Streams

variable {t : Tree} {text : String} {x y : TokenId} {a c : Token} (h : t.Streams text)

include h

theorem standsIn (ha : t.token? x = some a) : a.StandsIn text :=
  h.tokens a (Array.mem_of_getElem? ha)

theorem stop_le_start (ha : t.token? x = some a) (hc : t.token? y = some c)
    (hlt : x.index < y.index) : a.stop ≤ c.start := by
  obtain ⟨hx, rfl⟩ := Array.getElem?_eq_some_iff.mp ha
  obtain ⟨hy, rfl⟩ := Array.getElem?_eq_some_iff.mp hc
  exact List.pairwise_iff_getElem.mp h.ordered x.index y.index (by simpa) (by simpa) hlt

/-- A later token does not begin earlier. -/
theorem start_le_start (ha : t.token? x = some a) (hc : t.token? y = some c)
    (hle : x.index ≤ y.index) : a.start ≤ c.start := by
  rcases Nat.lt_or_eq_of_le hle with hlt | heq
  · have := h.stop_le_start ha hc hlt
    have := (h.standsIn ha).stop_eq
    omega
  · cases x
    cases y
    cases heq
    rw [Option.some.inj (ha.symm.trans hc)]

end Tree.Streams

namespace Builder

variable {b : Builder} {text : String}

/-- What holds of a builder that was fed a text: its cursor is at the end of it, and its tokens
stand in it one after the other. -/
structure Reads (b : Builder) (text : String) : Prop where
  cursor : b.cursor = Cursor.start.advance text
  tree : b.tree.Streams text

theorem reads_initial : Builder.initial.Reads "" where
  cursor := rfl
  tree := ⟨by simp [initial, Tree.empty], .nil⟩

namespace Reads

variable (h : b.Reads text)

include h

/-- An event without text leaves cursor and tokens alone. -/
theorem of_eq {b' : Builder} (hcursor : b'.cursor = b.cursor)
    (htokens : b'.tree.tokens = b.tree.tokens) : b'.Reads text :=
  ⟨hcursor ▸ h.cursor, ⟨htokens ▸ h.tree.tokens, htokens ▸ h.tree.ordered⟩⟩

theorem hidden (more : String) : (b.hidden more).Reads (text ++ more) := by
  refine ⟨?_, ?_, h.tree.ordered⟩
  · rw [Text.advance_append, ← h.cursor]
    rfl
  · intro x hx
    exact (h.tree.tokens x hx).append more

theorem token (type : Int) (more : String) : (b.token type more).Reads (text ++ more) := by
  have hcursor := h.cursor
  have hmoved : b.cursor.advance more = Cursor.start.advance (text ++ more) := by
    rw [Text.advance_append, ← hcursor]
  refine ⟨hmoved, ⟨?_, ?_⟩⟩
  · intro x hx
    rw [tokens_token, Array.mem_push] at hx
    rcases hx with hx | rfl
    · exact (h.tree.tokens x hx).append more
    · have hstands := Token.StandsIn.of_cursor (s := text) (t := "")
        (x := ⟨type, more, b.cursor.line, b.cursor.column, b.cursor.offset,
          (b.cursor.advance more).offset, b.nextToken.index⟩) hcursor.symm
        (by rw [hmoved, Text.advance_start])
      rw [String.append_empty] at hstands
      exact hstands
  · rw [tokens_token, Array.toList_push, List.pairwise_append]
    refine ⟨h.tree.ordered, List.pairwise_singleton _ _, ?_⟩
    intro x hx y hy
    have hle := (h.tree.tokens x (Array.mem_def.mpr hx)).stop_le
    rw [List.mem_singleton.mp hy, hcursor, Text.advance_start]
    exact hle

theorem feed (e : Event) : (b.feed e).Reads (text ++ e.text) := by
  cases e with
  | start kind =>
      rw [Event.text, String.append_empty]
      exact h.of_eq cursor_start tokens_start
  | finish =>
      rw [Event.text, String.append_empty]
      cases hopen : b.openNodes with
      | nil =>
          rw [feed_finish_nil hopen]
          exact h
      | cons id rest =>
          rw [feed_finish_cons hopen]
          exact h.of_eq rfl rfl
  | label l =>
      rw [Event.text, String.append_empty]
      exact h.of_eq rfl rfl
  | token type more => exact h.token type more
  | hidden more => exact h.hidden more

end Reads

theorem reads_fed (events : List Event) : (fed events).Reads (Event.source events) := by
  refine fed_induction (P := fun events b => b.Reads (Event.source events)) reads_initial ?_ events
  intro events e h
  rw [Event.source_concat]
  exact h.feed e

end Builder

end TreeSchema
