/-
Texts and spans of nodes.

The text of a node and its span are read off the stream of tokens, from the first token that the
node names to the last.  In a built tree these are the tokens below it, so text and span are
those of what is really in it.

A node with nothing in it names no last token, and for its first the token that is read next
after it has ended.  It gets that name from the token, whenever that comes, so the proof follows
an ended node through the events after its end.
-/
import TreeSchema.Proofs.Coverage
import TreeSchema.Proofs.Stream

namespace TreeSchema

namespace Tree

variable {t : Tree} {id : NodeId} {n : Node} {x y : TokenId} {a : Token}

/-! ### The tokens between two -/

theorem token_eq_ok_iff : t.token x = .ok a ↔ t.token? x = some a := by
  unfold token
  cases t.token? x <;> simp

theorem token?_of_lt (h : x.index < t.tokens.size) : ∃ a, t.token? x = some a :=
  ⟨_, Array.getElem?_eq_getElem h⟩

/-- Tokens that are numbered in a row lie in the stream in a row. -/
theorem mapM_token_range' :
    ∀ (k i : Nat), i + k ≤ t.tokens.size →
      ((List.range' i k).map TokenId.mk).mapM t.token =
        .ok (t.tokens.extract i (i + k)).toList := by
  intro k
  induction k with
  | zero =>
      intro i _
      simp
      rfl
  | succ k ih =>
      intro i hi
      have hlt : i < t.tokens.size := by omega
      have hhead : t.token ⟨i⟩ = .ok t.tokens[i] :=
        token_eq_ok_iff.mpr (Array.getElem?_eq_getElem hlt)
      have htail := ih (i + 1) (by omega)
      have hrow : (t.tokens.extract i (i + (k + 1))).toList =
          t.tokens[i] :: (t.tokens.extract (i + 1) (i + 1 + k)).toList := by
        have hlt' : i < t.tokens.toList.length := by simpa using hlt
        rw [Array.toList_extract, Array.toList_extract, List.extract_eq_take_drop,
          List.extract_eq_take_drop, List.drop_eq_getElem_cons hlt',
          show i + (k + 1) - i = k + 1 by omega, show i + 1 + k - (i + 1) = k by omega,
          List.take_succ_cons, Array.getElem_toList]
      rw [List.range'_succ, List.map_cons, List.mapM_cons, hhead, htail, hrow]
      rfl

/-- The tokens below a node, which have to be there. -/
def leafTokens (t : Tree) (id : NodeId) : Except Error (List Token) := (t.leaves id).mapM t.token

/-- Below the node `id` are the tokens from `x`, which is `a`, to `y`, which is `c`. -/
structure Runs (t : Tree) (id : NodeId) (x y : TokenId) (a c : Token) (tokens : List Token) :
    Prop where
  le : x.index ≤ y.index
  first : t.token? x = some a
  last : t.token? y = some c
  below : t.leafTokens id = .ok tokens
  between : t.tokensBetween x y = .ok tokens
  head : tokens.head? = some a
  getLast : tokens.getLast? = some c

/-- A node that names a last token has below it what is between its first and that one. -/
theorem Built.exists_runs (h : t.Built) (hn : t.node? id = some n) (hy : n.stop = some y) :
    ∃ x a c tokens, n.start = some x ∧ t.Runs id x y a c tokens := by
  obtain ⟨hlt, x, hx, hle⟩ := h.tiled.stopped hn hy
  obtain ⟨a, ha⟩ := token?_of_lt (Nat.lt_of_le_of_lt hle hlt)
  obtain ⟨c, hc⟩ := token?_of_lt hlt
  have hbelow : t.leafTokens id = .ok (t.tokens.extract x.index (y.index + 1)).toList := by
    have hstop : x.index + (y.index + 1 - x.index) = y.index + 1 := by omega
    rw [leafTokens, h.leaves_eq_stretch hn, Node.stretch_eq hx hy,
      mapM_token_range' _ _ (by omega), hstop]
  refine ⟨x, a, c, _, hx, hle, ha, hc, hbelow, ?_, ?_, ?_⟩
  · rw [tokensBetween, if_neg (by omega), if_pos hlt]
  · rw [List.head?_eq_getElem?, Array.getElem?_toList, Array.getElem?_extract, if_pos (by omega)]
    exact ha
  · have hlast : x.index + (min (y.index + 1) t.tokens.size - x.index - 1) = y.index := by omega
    rw [List.getLast?_eq_getElem?, Array.getElem?_toList, Array.length_toList, Array.size_extract,
      Array.getElem?_extract, if_pos (by omega), hlast]
    exact hc

theorem Built.leaves_eq_nil_iff (h : t.Built) (hn : t.node? id = some n) :
    t.leaves id = [] ↔ n.stop = none := by
  rw [h.leaves_eq_stretch hn]
  exact h.tiled.stretch_eq_nil_iff hn

theorem leafTokens_eq_nil (h : t.leaves id = []) : t.leafTokens id = .ok [] := by
  rw [leafTokens, h]
  rfl

/-- A node has the text of the tokens between its ends, if it names both. -/
theorem text_eq (hn : t.node? id = some n) :
    t.text id = match n.start, n.stop with
      | some start, some stop => joinedText <$> t.tokensBetween start stop
      | _, _ => .ok "" := by
  rw [text, node_eq_ok_iff.mpr hn]
  rfl

theorem firstToken_eq (hn : t.node? id = some n) : t.firstToken id = t.optToken n.start := by
  rw [firstToken, node_eq_ok_iff.mpr hn]
  rfl

theorem lastToken_eq (hn : t.node? id = some n) : t.lastToken id = t.optToken n.stop := by
  rw [lastToken, node_eq_ok_iff.mpr hn]
  rfl

theorem optToken_some (hx : t.token? x = some a) : t.optToken (some x) = .ok (some a) := by
  show some <$> t.token x = _
  rw [token_eq_ok_iff.mpr hx]
  rfl

@[simp] theorem optToken_none : t.optToken none = .ok none := rfl

theorem nodeSpan_eq {c : Token} (hn : t.node? id = some n) (hx : n.start = some x)
    (ha : t.token? x = some a) (hy : n.stop = some y) (hc : t.token? y = some c) :
    t.nodeSpan id = .ok (some ⟨a.start, max c.stop a.start⟩) := by
  rw [nodeSpan, firstToken_eq hn, lastToken_eq hn, hx, hy, optToken_some ha, optToken_some hc]
  rfl

theorem nodeSpan_eq_empty (hn : t.node? id = some n) (hx : n.start = some x)
    (ha : t.token? x = some a) (hy : n.stop = none) :
    t.nodeSpan id = .ok (some ⟨a.start, a.start⟩) := by
  rw [nodeSpan, firstToken_eq hn, lastToken_eq hn, hx, hy, optToken_some ha]
  rfl

theorem nodeSpan_eq_none (hn : t.node? id = some n) (hx : n.start = none) :
    t.nodeSpan id = .ok none := by
  rw [nodeSpan, firstToken_eq hn, hx]
  rfl

/-- What a node says of itself is what the tokens below it say. -/
structure Extends (t : Tree) (id : NodeId) (n : Node) (tokens : List Token) : Prop where
  below : t.leafTokens id = .ok tokens
  stop : n.stop = none ↔ t.leaves id = []
  /-- The tokens below it are all tokens from its first to its last. -/
  range : ∀ {y}, n.stop = some y → ∃ x, n.start = some x ∧ x.index ≤ y.index ∧
    t.leaves id = (List.range' x.index (y.index + 1 - x.index)).map TokenId.mk ∧
    t.tokensBetween x y = .ok tokens
  text : t.text id = .ok (String.join ((tokens.filter (!·.isEnd)).map Token.text))
  span : ∀ {first last}, tokens.head? = some first → tokens.getLast? = some last →
    t.nodeSpan id = .ok (some ⟨first.start, last.stop⟩)
  /-- With no token below it, it has no text, and its span is empty. -/
  empty : t.leaves id = [] → t.text id = .ok "" ∧
    t.nodeSpan id = .ok ((n.start.bind t.token?).map fun x => ⟨x.start, x.start⟩)

theorem Built.extends_of_stop_eq_none (h : t.Built) (hn : t.node? id = some n)
    (hy : n.stop = none) : t.Extends id n [] := by
  have hleaves := (h.leaves_eq_nil_iff hn).mpr hy
  have hspan : t.nodeSpan id = .ok ((n.start.bind t.token?).map fun x => ⟨x.start, x.start⟩) := by
    cases hx : n.start with
    | none => exact nodeSpan_eq_none hn hx
    | some x =>
        obtain ⟨a, ha⟩ := token?_of_lt (h.tiled.started hn hx)
        rw [nodeSpan_eq_empty hn hx ha hy, Option.bind_some, ha]
        rfl
  have htext : t.text id = .ok "" := by
    rw [text_eq hn, hy]
    cases n.start <;> rfl
  refine ⟨leafTokens_eq_nil hleaves, (h.leaves_eq_nil_iff hn).symm, ?_, htext, ?_,
    fun _ => ⟨htext, hspan⟩⟩
  · intro y hy'
    rw [hy] at hy'
    cases hy'
  · intro first last hfirst
    cases hfirst

theorem Built.extends_of_runs (h : t.Built) {source : String} (hs : t.Streams source)
    (hn : t.node? id = some n) (hx : n.start = some x) (hy : n.stop = some y) {c : Token}
    {tokens : List Token} (hruns : t.Runs id x y a c tokens) : t.Extends id n tokens := by
  have hnone := h.leaves_eq_nil_iff hn
  have hpast : a.start ≤ c.stop := by
    have := hs.start_le_start hruns.first hruns.last hruns.le
    have := (hs.standsIn hruns.last).stop_eq
    omega
  refine ⟨hruns.below, hnone.symm, ?_, ?_, ?_, ?_⟩
  · intro y' hy'
    obtain rfl : y = y' := Option.some.inj (hy.symm.trans hy')
    refine ⟨x, hx, hruns.le, ?_, hruns.between⟩
    rw [h.leaves_eq_stretch hn, Node.stretch_eq hx hy]
  · rw [text_eq hn, hx, hy]
    show joinedText <$> t.tokensBetween x y = _
    rw [hruns.between]
    rfl
  · intro first last hfirst hlast
    rw [hruns.head, Option.some.injEq] at hfirst
    rw [hruns.getLast, Option.some.injEq] at hlast
    rw [nodeSpan_eq hn hx hruns.first hy hruns.last, Nat.max_eq_left hpast, hfirst, hlast]
  · intro hleaves
    rw [hnone.mp hleaves] at hy
    cases hy

/-- In a built tree nodes say of themselves what the tokens below them say. -/
theorem Built.exists_extends (h : t.Built) {source : String} (hs : t.Streams source)
    (hn : t.node? id = some n) : ∃ tokens, t.Extends id n tokens := by
  cases hy : n.stop with
  | none => exact ⟨[], h.extends_of_stop_eq_none hn hy⟩
  | some y =>
      obtain ⟨x, a, c, tokens, hx, hruns⟩ := h.exists_runs hn hy
      exact ⟨tokens, h.extends_of_runs hs hn hx hy hruns⟩

end Tree

namespace Builder

variable {b : Builder} {id : NodeId} {x : TokenId} {kind : String} {type : Int} {text : String}

/-! ### After the end of a node -/

/-- The node `id` ended when the next token was to get the number `x`.  If nothing is in it, it
waits for that token or names it. -/
structure Ended (b : Builder) (id : NodeId) (x : TokenId) : Prop where
  closed : id ∉ b.openNodes
  node : ∃ n, b.tree.node? id = some n ∧ (n.stop = none →
    id ∈ b.awaiting ∧ n.start = none ∧ b.nextToken = x ∨
      id ∉ b.awaiting ∧ n.start = some x ∧ x.index < b.tree.tokens.size)

/-- The innermost open node ends. -/
theorem Covered.ended_finish (h : b.Covered) (hhead : b.openNodes.head? = some id) :
    (b.feed .finish).Ended id b.nextToken := by
  obtain ⟨rest, hopen⟩ := List.head?_eq_some_iff.mp hhead
  have hfalling := h.linked.falling
  obtain ⟨n, hn⟩ := h.linked.exists_node (List.mem_of_mem_head? hhead)
  rw [feed_finish_cons hopen]
  refine ⟨?_, n, hn, ?_⟩
  · rw [hopen, List.pairwise_cons] at hfalling
    intro hid
    exact absurd (hfalling.1 id hid) (Nat.lt_irrefl _)
  · intro hstop
    -- an open node that has begun names a last token
    have hstart : n.start = none := by
      cases hx : n.start with
      | none => rfl
      | some x =>
          obtain ⟨y, hy, -⟩ := h.begun (List.mem_of_mem_head? hhead) hn hx
          rw [hstop] at hy
          cases hy
    refine .inl ⟨?_, hstart, rfl⟩
    simp [hn, hstart]

namespace Ended

variable (h : b.Ended id x)

include h

theorem token (type : Int) (text : String) : (b.token type text).Ended id x := by
  obtain ⟨hclosed, n, hn, hnode⟩ := h
  refine ⟨hclosed, b.receive id n, by rw [node?_token, hn]; rfl, ?_⟩
  rw [stop_receive, start_receive, if_neg hclosed, if_neg hclosed, tokens_token, Array.size_push]
  intro hstop
  refine .inr ⟨by simp, ?_⟩
  rcases hnode hstop with ⟨hwaits, -, rfl⟩ | ⟨hwaits, hstart, hlt⟩
  · exact ⟨if_pos hwaits, Nat.lt_succ_self _⟩
  · rw [if_neg hwaits]
    exact ⟨hstart, Nat.lt_succ_of_lt hlt⟩

theorem start (hb : b.Ordered) (kind : String) : (b.start kind).Ended id x := by
  obtain ⟨hclosed, n, hn, hnode⟩ := h
  have hne : id ≠ b.nextNode := by
    rintro rfl
    exact absurd (Tree.index_lt hn) (Nat.lt_irrefl _)
  constructor
  · rw [openNodes_start, List.mem_cons, not_or]
    exact ⟨hne, hclosed⟩
  · rw [node?_start hb.openNodes, if_neg hne, hn, awaiting_start, nextToken, tokens_start]
    refine ⟨_, rfl, ?_⟩
    split <;> exact hnode

theorem finish : (b.feed .finish).Ended id x := by
  cases hopen : b.openNodes with
  | nil =>
      rw [feed_finish_nil hopen]
      exact h
  | cons j rest =>
      obtain ⟨hclosed, n, hn, hnode⟩ := h
      rw [hopen, List.mem_cons, not_or] at hclosed
      rw [feed_finish_cons hopen]
      refine ⟨hclosed.2, n, hn, ?_⟩
      have hwaits : id ∈ (if ((b.tree.node? j).bind Node.start).isNone then b.awaiting ++ [j]
          else b.awaiting) ↔ id ∈ b.awaiting := by
        split
        · simp [hclosed.1]
        · rfl
      simp only [hwaits]
      exact hnode

theorem feed (hb : b.Ordered) (e : Event) : (b.feed e).Ended id x := by
  cases e with
  | start kind => exact h.start hb kind
  | finish => exact h.finish
  | label l => exact ⟨h.closed, h.node⟩
  | token type text => exact h.token type text
  | hidden text => exact ⟨h.closed, h.node⟩

end Ended

/-- The node `id` is ended by the first of some events after the events `before`. -/
structure Ends (events before : List Event) (id : NodeId) : Prop where
  here : (before ++ [.finish]) <+: events
  innermost : (fed before).openNodes.head? = some id

variable {events before : List Event}

theorem Ends.append (h : Ends events before id) (more : List Event) :
    Ends (events ++ more) before id :=
  ⟨h.here.trans (List.prefix_append events more), h.innermost⟩

/-- A node that has ended stays so. -/
theorem Ends.ended (h : Ends events before id) : (fed events).Ended id (fed before).nextToken := by
  obtain ⟨⟨after, rfl⟩, hhead⟩ := h
  induction after using List.reverseRecOn with
  | nil =>
      rw [List.append_nil, fed_concat]
      exact (covered_fed before).ended_finish hhead
  | append_singleton after e ih =>
      rw [← List.append_assoc, fed_concat]
      exact ih.feed (linked_fed _).ordered e

/-- Every node is open or was ended by one of the events. -/
theorem open_or_ends (events : List Event) {n : Node} (hn : (fed events).tree.node? id = some n) :
    id ∈ (fed events).openNodes ∨ ∃ before, Ends events before id := by
  revert id n
  refine fed_induction (P := fun events b => ∀ {id n}, b.tree.node? id = some n →
    id ∈ b.openNodes ∨ ∃ before, Ends events before id) ?_ ?_ events
  · intro id n hn
    exact absurd (Tree.index_lt hn) (Nat.not_lt_zero _)
  · intro events e ih id n hn
    have hold : (∃ before, Ends events before id) → ∃ before, Ends (events ++ [e]) before id :=
      fun ⟨before, h⟩ => ⟨before, h.append [e]⟩
    cases e with
    | start kind =>
        have hn : ((fed events).start kind).tree.node? id = some n := hn
        show id ∈ ((fed events).start kind).openNodes ∨ _
        rw [openNodes_start, List.mem_cons]
        rw [node?_start (linked_fed events).ordered.openNodes] at hn
        by_cases hid : id = (fed events).nextNode
        · exact .inl (.inl hid)
        · rw [if_neg hid] at hn
          obtain ⟨m, hm, -⟩ := Option.map_eq_some_iff.mp hn
          exact (ih hm).imp .inr hold
    | finish =>
        cases hopen : (fed events).openNodes with
        | nil =>
            rw [feed_finish_nil hopen] at hn ⊢
            exact (ih hn).imp_right hold
        | cons j rest =>
            rw [feed_finish_cons hopen] at hn ⊢
            rcases ih hn with hid | hends
            · rw [hopen, List.mem_cons] at hid
              rcases hid with rfl | hid
              · exact .inr ⟨events, List.prefix_refl _, by rw [hopen]; rfl⟩
              · exact .inl hid
            · exact .inr (hold hends)
    | token type text =>
        have hn : ((fed events).token type text).tree.node? id = some n := hn
        rw [node?_token] at hn
        obtain ⟨m, hm, -⟩ := Option.map_eq_some_iff.mp hn
        exact (ih hm).imp_right hold
    | label l => exact (ih hn).imp_right hold
    | hidden text => exact (ih hn).imp_right hold

end Builder

namespace Tree

/--
**Nodes extend over the tokens below them.**  In a tree that a builder finishes a node names a
last token exactly if there is a token below it, and then its range of the stream, its text and
its span are those of the tokens below it.  A node with nothing in it has no text; for its first
token it names the one that was read next after it ended, if there was one, and it has an empty
span there.
-/
theorem built_extends {events : List Event} {t : Tree} (ht : (Builder.fed events).toTree = .ok t)
    {id : NodeId} {n : Node} (hn : t.node? id = some n) :
    (∃ tokens, t.Extends id n tokens) ∧ (∃ before, Builder.Ends events before id) ∧
      ∀ before, Builder.Ends events before id → t.leaves id = [] →
        n.start = if (Builder.fed before).nextToken.index < t.tokens.size then
          some (Builder.fed before).nextToken else none := by
  have hbuilt : t.Built := ⟨events, ht⟩
  have hreads := Builder.reads_fed events
  have hended {before} (h : Builder.Ends events before id) := h.ended
  have hends {n} (hn : (Builder.fed events).tree.node? id = some n) :=
    Builder.open_or_ends events hn
  obtain ⟨hopen, -, rfl⟩ := Builder.toTree_eq_ok_iff.mp ht
  refine ⟨hbuilt.exists_extends hreads.tree hn, ?_, ?_⟩
  · exact (hends hn).resolve_left (by simp [hopen])
  · intro before hbefore hleaves
    obtain ⟨-, m, hm, hnode⟩ := hended hbefore
    obtain rfl : n = m := Option.some.inj (hn.symm.trans hm)
    have hstop := (hbuilt.leaves_eq_nil_iff hn).mp hleaves
    rcases hnode hstop with ⟨-, hstart, hnext⟩ | ⟨-, hstart, hlt⟩
    · rw [hstart, ← hnext]
      exact (if_neg (Nat.lt_irrefl _)).symm
    · rw [hstart, if_pos hlt]

/-- A list of two options, each left out: one before its only token and one after it. -/
def optionEvents : List Event :=
  [.start "List", .start "Option", .finish, .token 1 "item", .hidden " ", .start "Option",
    .finish, .finish]

/-- The list goes over its token, the first option names it and the second has none to name. -/
theorem built_extends_options :
    ∃ t list first second, (Builder.fed optionEvents).toTree = .ok t ∧
      t.node? ⟨0⟩ = some list ∧ t.node? ⟨1⟩ = some first ∧ t.node? ⟨2⟩ = some second ∧
      (∃ tokens, t.Extends ⟨0⟩ list tokens) ∧ t.leaves ⟨0⟩ = [⟨0⟩] ∧
      first.start = some ⟨0⟩ ∧ second.start = none := by
  have ht : (Builder.fed optionEvents).toTree = .ok (Builder.fed optionEvents).tree :=
    Builder.toTree_eq_ok_iff.mpr ⟨by decide, by decide, rfl⟩
  have hthere (i : Nat) (hi : i < 3) : ∃ n, (Builder.fed optionEvents).tree.node? ⟨i⟩ = some n :=
    node?_of_lt hi
  obtain ⟨list, hlist⟩ := hthere 0 (by decide)
  obtain ⟨first, hfirst⟩ := hthere 1 (by decide)
  obtain ⟨second, hsecond⟩ := hthere 2 (by decide)
  refine ⟨_, list, first, second, ht, hlist, hfirst, hsecond, (built_extends ht hlist).1,
    by decide, ?_, ?_⟩
  · exact (built_extends ht hfirst).2.2 (optionEvents.take 2) ⟨by decide, by decide⟩ (by decide)
  · exact (built_extends ht hsecond).2.2 (optionEvents.take 6) ⟨by decide, by decide⟩ (by decide)

end Tree

end TreeSchema
