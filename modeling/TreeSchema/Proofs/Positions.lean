/-
Source positions.

A token says on which line and in which column it begins, as the cursor of the builder had it.
Where it ends is worked out from its text when it is asked for.  In a built tree both agree with
the whole text, so the source positions of a node are the line and the column of the text before
its first token and after its last.

A position is counted without bound and handed out as a machine word.  In a text of less than
2 ^ 63 bytes every position fits into a word but one: the line after 2 ^ 63 - 1 line feeds and
nothing else.
-/
import TreeSchema.Element.Reading
import TreeSchema.Proofs.Extent

namespace TreeSchema

open Text (lineAt columnAt lineAt_append columnAt_append)

/-! ### Bounds -/

namespace Text

theorem upTo_isPrefix (cs : List Char) : ∀ offset, upTo offset cs <+: cs := by
  induction cs with
  | nil => intro offset; exact List.prefix_refl _
  | cons c cs ih =>
      intro offset
      rw [upTo]
      split
      · exact List.cons_prefix_cons.mpr ⟨rfl, ih _⟩
      · exact List.nil_prefix

theorem newlines_before_le (text : String) (offset : Nat) :
    newlines (before text offset) ≤ newlines text := by
  rw [newlines, before, String.toList_ofList]
  exact (upTo_isPrefix text.toList offset).sublist.count_le _

theorem tailLength_le (text : String) : tailLength text ≤ text.length := by
  have h := (List.takeWhile_sublist (· ≠ '\n') (l := text.toList.reverse)).length_le
  rwa [List.length_reverse, String.length_toList] at h

theorem length_le_utf8ByteSize (text : String) : text.length ≤ text.utf8ByteSize := by
  obtain ⟨cs, rfl⟩ : ∃ cs, text = .ofList cs := ⟨text.toList, String.ofList_toList.symm⟩
  rw [← String.length_toList, String.toList_ofList]
  induction cs with
  | nil => simp
  | cons c cs ih =>
      have := c.utf8Size_pos
      rw [utf8ByteSize_ofList_cons, List.length_cons]
      omega

theorem columnAt_le (text : String) (offset : Nat) : columnAt text offset ≤ text.utf8ByteSize := by
  have hlength : (before text offset).length ≤ text.length := by
    rw [before, ← String.length_toList, ← String.length_toList, String.toList_ofList]
    exact (upTo_isPrefix text.toList offset).length_le
  exact ((tailLength_le _).trans hlength).trans (length_le_utf8ByteSize text)

theorem newlines_le (text : String) : newlines text ≤ text.utf8ByteSize := by
  refine Nat.le_trans ?_ (length_le_utf8ByteSize text)
  rw [newlines, ← String.length_toList]
  exact List.count_le_length

/-- Only a text of nothing else has as many line feeds as bytes. -/
theorem eq_newline (text : String) (h : newlines text = text.utf8ByteSize) :
    ∀ c ∈ text.toList, c = '\n' := by
  have hle := length_le_utf8ByteSize text
  have hcount : text.toList.count '\n' = text.toList.length := by
    refine Nat.le_antisymm List.count_le_length ?_
    rw [String.length_toList]
    exact hle.trans h.ge
  intro c hc
  exact (List.count_eq_length.mp hcount c hc).symm

/-- A row of line feeds. -/
def feeds (n : Nat) : String := .ofList (.replicate n '\n')

theorem newlines_feeds (n : Nat) : newlines (feeds n) = n := by
  rw [newlines, feeds, String.toList_ofList, List.count_replicate_self]

theorem utf8ByteSize_feeds (n : Nat) : (feeds n).utf8ByteSize = n := by
  induction n with
  | zero => rfl
  | succ n ih =>
      rw [feeds] at ih ⊢
      rw [List.replicate_succ, utf8ByteSize_ofList_cons, ih]
      exact Nat.add_comm 1 n

theorem tailLength_feeds (n : Nat) : tailLength (feeds n) = 0 := by
  simp [tailLength, feeds]

end Text

/-- A count is handed out as it is unless it needs the digit of the sign. -/
theorem Value.ofNat_eq {k : Nat} (h : k < 2 ^ 63) : Value.ofNat k = .int k := by
  have hcount : Word.count 64 = 2 ^ 64 := rfl
  rw [Value.ofNat, Word.wrap, hcount, Int.bmod_eq_of_le] <;> omega

namespace Token.StandsIn

variable {x : Token} {text : String} (h : x.StandsIn text)

include h

theorem endLine_eq : x.endLine = lineAt text x.stop := by
  obtain ⟨s, t, rfl, hstop, hline, -⟩ := h.cursor_stop
  rw [hstop, hline, lineAt_append]

/-- The end of the input is taken to have no width, so its text must not have any. -/
theorem endColumn_eq (hend : x.isEnd = true → x.text = "") :
    x.endColumn = columnAt text x.stop := by
  obtain ⟨s, t, rfl, hstop, -, hcolumn⟩ := h.cursor_stop
  rw [hstop, hcolumn hend, columnAt_append]

end Token.StandsIn

/-! ### Positions of nodes -/

theorem anyM_eq_false {ε α : Type} {f : α → Except ε Bool} {l : List α}
    (h : ∀ a ∈ l, f a = .ok false) : l.anyM f = .ok false := by
  induction l with
  | nil => rfl
  | cons a l ih =>
      rw [List.anyM_cons, h a List.mem_cons_self]
      exact ih fun c hc => h c (List.mem_cons_of_mem _ hc)

namespace Tree

variable {t : Tree} {source : String} {id : NodeId} {n : Node} {x y : TokenId} {a c : Token}
  {p : Position} {k : Nat}

/-- No text is found below a node with nothing in it. -/
theorem Built.hasTextWithin_eq (h : t.Built) :
    ∀ (levels : Nat) {id : NodeId}, t.nodes.size ≤ levels + id.index →
      (∃ n, t.node? id = some n) → t.leaves id = [] → t.hasTextWithin levels id = .ok false := by
  intro levels
  induction levels with
  | zero =>
      rintro id hlevels ⟨n, hn⟩ _
      have := index_lt hn
      omega
  | succ levels ih =>
      rintro id hlevels ⟨n, hn⟩ hleaves
      rw [hasTextWithin, node_eq_ok_iff.mpr hn]
      refine anyM_eq_false fun d hd => ?_
      rw [h.leaves_eq_flatMap hn, List.flatMap_eq_nil_iff] at hleaves
      cases d with
      | token x => cases hleaves _ hd
      | node d =>
          obtain ⟨hlt, hd'⟩ := h.ordered.child hn hd
          exact ih (by omega) (node?_of_lt hd') (hleaves _ hd)

theorem endOf_eq (hn : t.node? id = some n) (hy : n.stop = some y) (hc : t.token? y = some c) :
    t.endOf id a = .ok (c.endLine, c.endColumn) := by
  rw [endOf, lastToken_eq hn, hy, optToken_some hc]
  rfl

theorem Built.endOf_eq_empty (h : t.Built) (hn : t.node? id = some n) (hy : n.stop = none) :
    t.endOf id a = .ok (a.line, a.column) := by
  have htext : t.hasText id = .ok false :=
    h.hasTextWithin_eq _ (by omega) ⟨n, hn⟩ ((h.leaves_eq_nil_iff hn).mpr hy)
  rw [endOf, lastToken_eq hn, hy, optToken_none]
  show (t.hasText id >>= _) = _
  rw [htext]
  rfl

/-- Of a node that names a first token all positions are known, if its end is. -/
theorem positionOf_eq {last : Nat × Nat} (hn : t.node? id = some n) (hx : n.start = some x)
    (ha : t.token? x = some a) (hlast : t.endOf id a = .ok last) :
    t.positionOf id p = .ok (match p with
      | .startLine => a.line
      | .startColumn => a.column
      | .endLine => last.1
      | .endColumn => last.2) := by
  rw [positionOf, firstToken_eq hn, hx, optToken_some ha]
  cases p with
  | startLine => rfl
  | startColumn => rfl
  | endLine =>
      show (t.endOf id a >>= _) = _
      rw [hlast]
      rfl
  | endColumn =>
      show (t.endOf id a >>= _) = _
      rw [hlast]
      rfl

/-- Without a first token a node has no positions. -/
theorem start_of_positionOf_eq (hn : t.node? id = some n) (h : t.positionOf id p = .ok k) :
    ∃ x, n.start = some x := by
  cases hx : n.start with
  | some x => exact ⟨x, rfl⟩
  | none =>
      rw [positionOf, firstToken_eq hn, hx, optToken_none] at h
      obtain ⟨first, hfirst, h⟩ := bind_eq_ok_iff.mp h
      cases hfirst
      obtain ⟨kind, -, h⟩ := bind_eq_ok_iff.mp h
      cases h

/-- The source positions of a node are where the tokens below it begin and end in a text. -/
structure Locates (t : Tree) (source : String) (id : NodeId) (n : Node) (tokens : List Token) :
    Prop where
  below : t.leafTokens id = .ok tokens
  begins : ∀ {first}, tokens.head? = some first →
    t.positionOf id .startLine = .ok (lineAt source first.start) ∧
      t.positionOf id .startColumn = .ok (columnAt source first.start)
  ends : ∀ {last}, tokens.getLast? = some last → (last.isEnd = true → last.text = "") →
    t.positionOf id .endLine = .ok (lineAt source last.stop) ∧
      t.positionOf id .endColumn = .ok (columnAt source last.stop)
  /-- A node with nothing in it begins and ends where the token begins that it names. -/
  empty : ∀ {x}, t.leaves id = [] → n.start = some x → ∃ a, t.token? x = some a ∧
    t.positionOf id .startLine = .ok a.line ∧ t.positionOf id .startColumn = .ok a.column ∧
      t.positionOf id .endLine = .ok a.line ∧ t.positionOf id .endColumn = .ok a.column
  succeeds : n.start ≠ none → ∀ p, ∃ k, t.positionOf id p = .ok k
  /-- Positions are handed out as they are. -/
  word : source.utf8ByteSize < 2 ^ 63 → ∀ {p k}, t.positionOf id p = .ok k →
    Value.ofNat k = .int k ∨
      k = 2 ^ 63 ∧ source.utf8ByteSize + 1 = 2 ^ 63 ∧ ∀ c ∈ source.toList, c = '\n'

/-- A node that names a first token ends somewhere. -/
theorem Built.exists_endOf (h : t.Built) (hn : t.node? id = some n) :
    ∃ last, t.endOf id a = .ok last := by
  cases hy : n.stop with
  | none => exact ⟨_, h.endOf_eq_empty hn hy⟩
  | some y =>
      obtain ⟨_, _, c, _, -, hruns⟩ := h.exists_runs hn hy
      exact ⟨_, endOf_eq hn hy hruns.last⟩

/-- Every position is the line or the column of some place in the text. -/
theorem Built.positionOf_at (h : t.Built) (hs : t.Streams source) (hn : t.node? id = some n)
    (hk : t.positionOf id p = .ok k) :
    ∃ offset, k = lineAt source offset ∨ k = columnAt source offset := by
  obtain ⟨x, hx⟩ := start_of_positionOf_eq hn hk
  obtain ⟨a, ha⟩ := token?_of_lt (h.tiled.started hn hx)
  have hstands := hs.standsIn ha
  obtain ⟨last, hlast⟩ := h.exists_endOf (a := a) hn
  rw [positionOf_eq hn hx ha hlast, Except.ok.injEq] at hk
  subst hk
  have hend : (∃ offset, last.1 = lineAt source offset) ∧
      ∃ offset, last.2 = columnAt source offset := by
    cases hy : n.stop with
    | none =>
        rw [h.endOf_eq_empty hn hy] at hlast
        cases hlast
        exact ⟨⟨_, hstands.line⟩, ⟨_, hstands.column⟩⟩
    | some y =>
        obtain ⟨_, _, c, _, -, hruns⟩ := h.exists_runs hn hy
        rw [endOf_eq hn hy hruns.last] at hlast
        cases hlast
        have hstands := hs.standsIn hruns.last
        refine ⟨⟨_, hstands.endLine_eq⟩, ?_⟩
        by_cases hend : c.isEnd = true
        · exact ⟨c.start, by simp [Token.endColumn, hend, hstands.column]⟩
        · exact ⟨_, hstands.endColumn_eq fun hend' => absurd hend' hend⟩
  obtain ⟨⟨i, hi⟩, ⟨j, hj⟩⟩ := hend
  cases p with
  | startLine => exact ⟨_, .inl hstands.line⟩
  | startColumn => exact ⟨_, .inr hstands.column⟩
  | endLine => exact ⟨_, .inl hi⟩
  | endColumn => exact ⟨_, .inr hj⟩

/-- In a text of less than 2 ^ 63 bytes a position is a word, unless it is the last line of a text
of nothing but line feeds. -/
theorem Built.positionOf_word (h : t.Built) (hs : t.Streams source) (hn : t.node? id = some n)
    (hsize : source.utf8ByteSize < 2 ^ 63) (hk : t.positionOf id p = .ok k) :
    Value.ofNat k = .int k ∨
      k = 2 ^ 63 ∧ source.utf8ByteSize + 1 = 2 ^ 63 ∧ ∀ c ∈ source.toList, c = '\n' := by
  have hnewlines := Text.newlines_le source
  obtain ⟨offset, rfl | rfl⟩ := h.positionOf_at hs hn hk
  · have hline : lineAt source offset ≤ 1 + Text.newlines source :=
      Nat.add_le_add_left (Text.newlines_before_le source offset) 1
    by_cases hlt : lineAt source offset < 2 ^ 63
    · exact .inl (Value.ofNat_eq hlt)
    · refine .inr ⟨by omega, by omega, Text.eq_newline source (by omega)⟩
  · have hcolumn := Text.columnAt_le source offset
    exact .inl (Value.ofNat_eq (by omega))

theorem Built.exists_locates (h : t.Built) (hs : t.Streams source) (hn : t.node? id = some n) :
    ∃ tokens, t.Locates source id n tokens := by
  have hsucceeds : n.start ≠ none → ∀ p, ∃ k, t.positionOf id p = .ok k := by
    intro hstart p
    obtain ⟨x, hx⟩ := Option.ne_none_iff_exists'.mp hstart
    obtain ⟨a, ha⟩ := token?_of_lt (h.tiled.started hn hx)
    obtain ⟨last, hlast⟩ := h.exists_endOf (a := a) hn
    exact ⟨_, positionOf_eq hn hx ha hlast⟩
  have hword (hsize : source.utf8ByteSize < 2 ^ 63) {p k} := h.positionOf_word (p := p) (k := k)
    hs hn hsize
  cases hy : n.stop with
  | none =>
      have hleaves := (h.leaves_eq_nil_iff hn).mpr hy
      refine ⟨[], leafTokens_eq_nil hleaves, ?_, ?_, ?_, hsucceeds, hword⟩
      · intro first hfirst
        cases hfirst
      · intro last hlast
        cases hlast
      · intro x _ hx
        obtain ⟨a, ha⟩ := token?_of_lt (h.tiled.started hn hx)
        have hat {p} := positionOf_eq (p := p) hn hx ha (h.endOf_eq_empty hn hy)
        exact ⟨a, ha, hat, hat, hat, hat⟩
  | some y =>
      obtain ⟨x, a, c, tokens, hx, hruns⟩ := h.exists_runs hn hy
      have hat {p} := positionOf_eq (p := p) hn hx hruns.first (endOf_eq hn hy hruns.last)
      refine ⟨tokens, hruns.below, ?_, ?_, ?_, hsucceeds, hword⟩
      · intro first hfirst
        obtain rfl := Option.some.inj (hruns.head.symm.trans hfirst)
        have hstands := hs.standsIn hruns.first
        rw [← hstands.line, ← hstands.column]
        exact ⟨hat, hat⟩
      · intro last hlast hend
        obtain rfl := Option.some.inj (hruns.getLast.symm.trans hlast)
        have hstands := hs.standsIn hruns.last
        rw [← hstands.endLine_eq, ← hstands.endColumn_eq hend]
        exact ⟨hat, hat⟩
      · intro x hleaves
        rw [(h.leaves_eq_nil_iff hn).mp hleaves] at hy
        cases hy

/--
**Positions agree with the text.**  In a tree that a builder finishes the tokens stand in the
whole text that it was fed, with the line and the column that they say.  A node begins where the
first token below it begins, and ends where the last one ends unless that is an end of the input
with text; a node with nothing in it is where the token begins that it names.  All positions of a
node that names a first token are known.
-/
theorem built_locates {events : List Event} {t : Tree}
    (ht : (Builder.fed events).toTree = .ok t) :
    (∀ x ∈ t.tokens, x.StandsIn (Event.source events)) ∧
      ∀ {id n}, t.node? id = some n → ∃ tokens, t.Locates (Event.source events) id n tokens := by
  have hbuilt : t.Built := ⟨events, ht⟩
  have hreads := Builder.reads_fed events
  obtain ⟨-, -, rfl⟩ := Builder.toTree_eq_ok_iff.mp ht
  refine ⟨hreads.tree.tokens, ?_⟩
  intro id n hn
  exact hbuilt.exists_locates hreads.tree hn

/-- A document of two lines after an empty one, with nothing before the end of the input. -/
def documentEvents : List Event :=
  [.hidden "\n", .start "Document", .token 1 "dé\nab", .start "Option", .finish, .hidden " ",
    .endOfInput, .finish]

/-- The document goes from the second line to the end of the input, where its option is. -/
theorem built_locates_document :
    ∃ t document, (Builder.fed documentEvents).toTree = .ok t ∧ t.node? ⟨0⟩ = some document ∧
      (∃ tokens, t.Locates (Event.source documentEvents) ⟨0⟩ document tokens) ∧
      t.positionOf ⟨0⟩ .startLine = .ok 2 ∧ t.positionOf ⟨0⟩ .startColumn = .ok 0 ∧
      t.positionOf ⟨0⟩ .endLine = .ok 3 ∧ t.positionOf ⟨0⟩ .endColumn = .ok 3 ∧
      t.positionOf ⟨1⟩ .endColumn = .ok 3 := by
  have ht : (Builder.fed documentEvents).toTree = .ok (Builder.fed documentEvents).tree :=
    Builder.toTree_eq_ok_iff.mpr ⟨by decide, by decide, rfl⟩
  obtain ⟨document, hdocument⟩ : ∃ n, (Builder.fed documentEvents).tree.node? ⟨0⟩ = some n :=
    node?_of_lt (by decide)
  refine ⟨_, document, ht, hdocument, (built_locates ht).2 hdocument, ?_, ?_, ?_, ?_, ?_⟩ <;>
    decide +kernel

/-- Lines, each of which is a mark, with their positions. -/
def lines : Blueprint where
  grammar := .ofParts "lines" none [⟨"Line", none, [.ofItem (.terminal "MARK") .single]⟩]
    [("MARK", 1)]
  config := Config.standard.withPositions true
  ignoredTypes := []
  known := by decide +kernel

/-- A line with an empty mark, after line feeds that belong to no token. -/
def feedEvents (n : Nat) : List Event :=
  [.hidden (Text.feeds n), .start "Line", .token 1 "", .finish]

def feedTree (n : Nat) : Tree where
  nodes := #[⟨"Line", none, [.token ⟨0⟩], some ⟨0⟩, some ⟨0⟩, ∅⟩]
  tokens := #[⟨1, "", n + 1, 0, n, n, 0⟩]
  root := some ⟨0⟩

def feedView (n : Nat) : View := ⟨lines, 0, feedTree n⟩

def feedLine : Element := ⟨0, ⟨0⟩, ⟨0⟩, []⟩

theorem source_feedEvents (n : Nat) : Event.source (feedEvents n) = Text.feeds n := by
  simp [Event.source, feedEvents, Event.text]

theorem toTree_feedEvents (n : Nat) : (Builder.fed (feedEvents n)).toTree = .ok (feedTree n) := by
  have hcursor : Text.Cursor.start.advance (Text.feeds n) = ⟨n, n + 1, 0⟩ := by
    rw [Text.advance_start, Text.newlines_feeds, Text.utf8ByteSize_feeds, Text.tailLength_feeds,
      Nat.add_comm]
  have hbuilt : ∀ c, Text.Cursor.start.advance (Text.feeds n) = c →
      (Builder.fed (feedEvents n)).tree =
        { feedTree n with tokens := #[⟨1, "", c.line, c.column, c.offset, c.offset, 0⟩] } := by
    rintro c rfl
    rfl
  exact Builder.toTree_eq_ok_iff.mpr ⟨rfl, rfl, hbuilt _ hcursor⟩

/-- The line after `n` line feeds is the one of number `n + 1`. -/
theorem lineAt_feedEvents (n : Nat) : lineAt (Event.source (feedEvents n)) n = n + 1 := by
  have hline := lineAt_append (s := Text.feeds n) (t := "")
  rw [String.append_empty, Text.utf8ByteSize_feeds, Text.newlines_feeds] at hline
  rw [source_feedEvents, hline, Nat.add_comm]

/-- It is handed out as a word. -/
theorem value?_feedLine (n : Nat) : ∃ s, (feedView n).root .empty = .ok feedLine s ∧
    (feedView n).value? s feedLine "startLine" = .ok (some (.ofNat (n + 1))) :=
  ⟨_, rfl, rfl⟩

/-- After 2 ^ 63 - 1 line feeds and nothing else, the line on which a node begins comes out
negative. -/
theorem built_locates_wraps :
    (Builder.fed (feedEvents (2 ^ 63 - 1))).toTree = .ok (feedTree (2 ^ 63 - 1)) ∧
      (Event.source (feedEvents (2 ^ 63 - 1))).utf8ByteSize < 2 ^ 63 ∧
      (∃ x, (feedTree (2 ^ 63 - 1)).leafTokens ⟨0⟩ = .ok [x] ∧
        lineAt (Event.source (feedEvents (2 ^ 63 - 1))) x.start = 2 ^ 63) ∧
      ∃ s, (feedView (2 ^ 63 - 1)).root .empty = .ok feedLine s ∧
        (feedView (2 ^ 63 - 1)).value? s feedLine "startLine" = .ok (some (.int (-2 ^ 63))) := by
  refine ⟨toTree_feedEvents _, ?_, ⟨_, rfl, lineAt_feedEvents (2 ^ 63 - 1)⟩,
    value?_feedLine (2 ^ 63 - 1)⟩
  rw [source_feedEvents, Text.utf8ByteSize_feeds]
  decide

end Tree

end TreeSchema
