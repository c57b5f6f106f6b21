/-
Where a label ends up.

A label is given before the child that it is for, and the builder keeps it until a child comes.
It does not keep the node that was open when the label was given.  So what is bound to a name can
be traced back to a label that was given before, with nothing but hidden text and ends of nodes in
between; and if `k` nodes ended in between then the child is bound `k` levels further out than the
label was given.  That is the same node only if no node ended.

The other way round, a label is lost in three cases only: another label comes first, or the next
child is outside of all nodes, or no child comes any more.
-/
import Mathlib.Data.List.Count
import TreeSchema.Proofs.Linked

namespace TreeSchema

/-- The name that a label binds. -/
def Label.name : Label → String
  | assign name => name
  | append name => name

/-- An event after which a label still waits for its child. -/
inductive Event.Idle : Event → Prop
  | finish : Idle .finish
  | hidden {text : String} : Idle (.hidden text)

/-- A child is what is bound to a name, or one of a list that is. -/
def Node.Binds (n : Node) (name : String) (c : Child) : Prop :=
  ∃ x, n.bindings.find? name = some x ∧ c ∈ (Filling.ofBinding x).toList

/-! ### Binding -/

/-- Binding one more child leaves what was bound, or binds the child to the name of the label. -/
theorem Label.mem_of_mem_bind {l : Label} {c d : Child} {bindings : FinMap String Binding}
    {name : String} {x : Binding} (hx : (l.bind c bindings).find? name = some x)
    (hd : d ∈ (Filling.ofBinding x).toList) :
    (∃ y, bindings.find? name = some y ∧ d ∈ (Filling.ofBinding y).toList) ∨
      l.name = name ∧ d = c := by
  cases l with
  | assign label =>
      rw [Label.bind, FinMap.find?_insert] at hx
      by_cases hname : label = name
      · rw [if_pos hname] at hx
        cases hx
        exact .inr ⟨hname, List.mem_singleton.mp hd⟩
      · rw [if_neg hname] at hx
        exact .inl ⟨x, hx, hd⟩
  | append label =>
      rw [Label.bind, FinMap.find?_insert] at hx
      by_cases hname : label = name
      · rw [if_pos hname] at hx
        cases hx
        subst hname
        have hmem : d ∈ (Filling.ofBinding (.append c (bindings.find? label))).toList →
            (∃ y, bindings.find? label = some y ∧ d ∈ (Filling.ofBinding y).toList) ∨ d = c := by
          cases bindings.find? label with
          | none =>
              intro hd
              exact .inr (List.mem_singleton.mp hd)
          | some y =>
              intro hd
              have hy : d ∈ (Filling.ofBinding y).toList ++ [c] := by
                cases y <;> exact hd
              rcases List.mem_append.mp hy with hy | hy
              · exact .inl ⟨y, rfl, hy⟩
              · exact .inr (List.mem_singleton.mp hy)
        exact (hmem hd).imp_right fun hd => ⟨rfl, hd⟩
      · rw [if_neg hname] at hx
        exact .inl ⟨x, hx, hd⟩

namespace Builder

variable {b : Builder} {e : Event} {es before between : List Event} {l : Label} {c d : Child}
  {id j : NodeId} {n n' : Node} {name : String}

/-! ### While a label waits -/

/-- The child that an event brings. -/
def brought? (b : Builder) : Event → Option Child
  | .start _ => some (.node b.nextNode)
  | .token _ _ => some (.token b.nextToken)
  | .finish | .label _ | .hidden _ => none

/-- The builder with another label waiting. -/
def withLabel (b : Builder) (label : Option Label) : Builder := { b with label := label }

/-- A row of events as a step from one builder to another. -/
theorem fed_append (es es' : List Event) : fed (es ++ es') = es'.foldl feed (fed es) :=
  List.foldl_append

theorem openNodes_feed_finish (b : Builder) : (b.feed .finish).openNodes = b.openNodes.tail := by
  cases hopen : b.openNodes with
  | nil => rw [feed_finish_nil hopen, hopen, List.tail_nil]
  | cons id rest => rw [feed_finish_cons hopen, List.tail_cons]

theorem tree_feed_finish (b : Builder) : (b.feed .finish).tree = b.tree := by
  cases hopen : b.openNodes with
  | nil => rw [feed_finish_nil hopen]
  | cons id rest => rw [feed_finish_cons hopen]

theorem label_feed_finish (b : Builder) : (b.feed .finish).label = b.label := by
  cases hopen : b.openNodes with
  | nil => rw [feed_finish_nil hopen]
  | cons id rest => rw [feed_finish_cons hopen]

/-- Events after which a label still waits do not look at it, and leave the tree alone. -/
theorem feed_withLabel_of_idle (he : e.Idle) (b : Builder) (label : Option Label) :
    (b.withLabel label).feed e = (b.feed e).withLabel label := by
  cases he with
  | finish =>
      cases hopen : b.openNodes with
      | nil =>
          rw [feed_finish_nil hopen]
          exact feed_finish_nil hopen
      | cons id rest =>
          rw [feed_finish_cons hopen]
          exact feed_finish_cons hopen
  | hidden => rfl

theorem foldl_feed_withLabel (label : Option Label) :
    ∀ {es : List Event}, (∀ e ∈ es, e.Idle) → ∀ b : Builder,
      es.foldl feed (b.withLabel label) = (es.foldl feed b).withLabel label := by
  intro es
  induction es with
  | nil =>
      intro _ b
      rfl
  | cons e es ih =>
      intro hidle b
      rw [List.foldl_cons, feed_withLabel_of_idle (hidle e List.mem_cons_self)]
      exact ih (fun x hx => hidle x (List.mem_cons_of_mem _ hx)) (b.feed e)

/-- With each end of a node the innermost open node is one level further out. -/
theorem openNodes_foldl_feed :
    ∀ {es : List Event}, (∀ e ∈ es, e.Idle) → ∀ b : Builder,
      (es.foldl feed b).openNodes = b.openNodes.drop (es.count .finish) := by
  intro es
  induction es with
  | nil =>
      intro _ b
      rfl
  | cons e es ih =>
      intro hidle b
      have hrest := ih (fun x hx => hidle x (List.mem_cons_of_mem _ hx)) (b.feed e)
      rw [List.foldl_cons, hrest]
      cases hidle e List.mem_cons_self with
      | finish =>
          rw [openNodes_feed_finish, List.count_cons_self, List.drop_tail]
      | @hidden text =>
          rw [List.count_cons_of_ne (by simp)]
          rfl

/-- The label that waits was given before, and no child has come since. -/
theorem exists_label_of_waiting (events : List Event) :
    ∀ {l : Label}, (fed events).label = some l →
      ∃ before between, events = before ++ .label l :: between ∧ ∀ x ∈ between, x.Idle := by
  induction events using List.reverseRecOn with
  | nil =>
      intro l hl
      cases hl
  | append_singleton events e ih =>
      intro l hl
      rw [fed_concat] at hl
      have hlater : (fed events).label = some l → e.Idle → ∃ before between,
          events ++ [e] = before ++ .label l :: between ∧ ∀ x ∈ between, x.Idle := by
        intro hl he
        obtain ⟨before, between, rfl, hidle⟩ := ih hl
        refine ⟨before, between ++ [e], by simp, ?_⟩
        intro x hx
        rcases List.mem_append.mp hx with hx | hx
        · exact hidle x hx
        · exact List.mem_singleton.mp hx ▸ he
      cases e with
      | start kind => cases hl
      | token type text => cases hl
      | label l' =>
          cases hl
          exact ⟨events, [], rfl, by simp⟩
      | finish => exact hlater (label_feed_finish _ ▸ hl) .finish
      | hidden text => exact hlater hl .hidden

/-! ### When a child comes -/

/-- The child that an event brings goes to the innermost open node. -/
theorem Ordered.adds (h : b.Ordered) (hc : b.brought? e = some c) : Adds b (b.feed e) c := by
  cases e with
  | start kind =>
      cases hc
      exact h.adds_start kind
  | token type text =>
      cases hc
      exact h.adds_token type text
  | finish => cases hc
  | label l => cases hc
  | hidden text => cases hc

/-- An event that brings no child leaves the tree alone. -/
theorem tree_feed_of_brought?_eq_none (hc : b.brought? e = none) : (b.feed e).tree = b.tree := by
  cases e with
  | start kind => cases hc
  | token type text => cases hc
  | finish => exact tree_feed_finish b
  | label l => rfl
  | hidden text => rfl

/-- Outside of all nodes the label that waits makes no difference to the child that comes. -/
theorem feed_withLabel_of_top (hopen : b.openNodes = []) (hc : b.brought? e = some c)
    (label : Option Label) : (b.withLabel label).feed e = b.feed e := by
  cases e with
  | start kind =>
      show (b.withLabel label).start kind = b.start kind
      cases hroot : b.tree.root <;>
        simp [start, noteTop, attach, withLabel, nextNode, hopen, hroot]
  | token type text =>
      show (b.withLabel label).token type text = b.token type text
      simp [token, attach, withLabel, nextToken, hopen]
  | finish => cases hc
  | label l => cases hc
  | hidden text => cases hc

/-- What is bound on a node was bound before, or is the child that came under the label that
waited. -/
theorem Gains.binds (hg : b.Gains c j n n') (hd : n'.Binds name d) :
    n.Binds name d ∨
      b.openNodes.head? = some j ∧ d = c ∧ ∃ l, b.label = some l ∧ l.name = name := by
  obtain ⟨x, hx, hmem⟩ := hd
  rw [hg.bindings] at hx
  by_cases hhead : b.openNodes.head? = some j
  · rw [if_pos hhead] at hx
    cases hlabel : b.label with
    | none =>
        simp only [Node.attach, hlabel] at hx
        exact .inl ⟨x, hx, hmem⟩
    | some l =>
        simp only [Node.attach, hlabel] at hx
        rcases l.mem_of_mem_bind hx hmem with hold | ⟨hname, hdc⟩
        · exact .inl hold
        · exact .inr ⟨hhead, hdc, l, rfl, hname⟩
  · rw [if_neg hhead] at hx
    exact .inl ⟨x, hx, hmem⟩

/-! ### Tracing a name back -/

/-- The events that bound a child to a name: a label was given, then nodes ended or hidden text
was read, and then the child came. -/
structure Traces (events : List Event) (id : NodeId) (name : String) (c : Child)
    (before : List Event) (l : Label) (between : List Event) (e : Event) : Prop where
  split : ∃ after, events = before ++ .label l :: (between ++ e :: after)
  name : l.name = name
  idle : ∀ x ∈ between, x.Idle
  brought : (fed (before ++ .label l :: between)).brought? e = some c
  /-- The node is as many levels further out as nodes ended since the label. -/
  level : (fed before).openNodes[between.count .finish]? = some id

theorem openNodes_fed_label (hidle : ∀ x ∈ between, x.Idle) :
    (fed (before ++ .label l :: between)).openNodes
      = (fed before).openNodes.drop (between.count .finish) := by
  rw [fed_append, List.foldl_cons]
  exact openNodes_foldl_feed hidle _

theorem fed_label (hidle : ∀ x ∈ between, x.Idle) :
    fed (before ++ .label l :: between) = (fed (before ++ between)).withLabel (some l) := by
  rw [fed_append, List.foldl_cons, fed_append]
  exact foldl_feed_withLabel (some l) hidle (fed before)

/-- Every name that is bound can be traced back. -/
theorem exists_traces (events : List Event) :
    ∀ {id n name c}, (fed events).tree.node? id = some n → n.Binds name c →
      ∃ before l between e, Traces events id name c before l between e := by
  induction events using List.reverseRecOn with
  | nil =>
      intro id n name c hn
      exact absurd (Tree.index_lt hn) (Nat.not_lt_zero _)
  | append_singleton events e ih =>
      intro id n' name c hn' hbinds
      rw [fed_concat] at hn'
      have hold : ∀ {n}, (fed events).tree.node? id = some n → n.Binds name c →
          ∃ before l between e', Traces (events ++ [e]) id name c before l between e' := by
        intro n hn hbinds
        obtain ⟨before, l, between, e', htrace⟩ := ih hn hbinds
        obtain ⟨after, hsplit⟩ := htrace.split
        exact ⟨before, l, between, e',
          { htrace with split := ⟨after ++ [e], by rw [hsplit]; simp⟩ }⟩
      cases hc : (fed events).brought? e with
      | none =>
          rw [tree_feed_of_brought?_eq_none hc] at hn'
          exact hold hn' hbinds
      | some d =>
          have hadds := (linked_fed events).ordered.adds hc
          rcases hadds.cases hn' with ⟨n, hn, hg⟩ | ⟨-, kind, rfl⟩
          · rcases hg.binds hbinds with hbinds | ⟨hhead, rfl, l, hlabel, hname⟩
            · exact hold hn hbinds
            · obtain ⟨before, between, rfl, hidle⟩ := exists_label_of_waiting events hlabel
              rw [openNodes_fed_label hidle, List.head?_drop] at hhead
              exact ⟨before, l, between, e, ⟨[], by simp⟩, hname, hidle, hc, hhead⟩
          · obtain ⟨x, hx, -⟩ := hbinds
            cases hx

/-- A child is bound to one name at most, that of the label under which it came. -/
theorem binds_unique (events : List Event) :
    ∀ {id n name name' c}, (fed events).tree.node? id = some n → n.Binds name c →
      n.Binds name' c → name = name' := by
  induction events using List.reverseRecOn with
  | nil =>
      intro id n name name' c hn
      exact absurd (Tree.index_lt hn) (Nat.not_lt_zero _)
  | append_singleton events e ih =>
      intro id n' name name' c hn' hbinds hbinds'
      rw [fed_concat] at hn'
      cases hc : (fed events).brought? e with
      | none =>
          rw [tree_feed_of_brought?_eq_none hc] at hn'
          exact ih hn' hbinds hbinds'
      | some d =>
          have hlinked := linked_fed events
          have hadds := hlinked.ordered.adds hc
          rcases hadds.cases hn' with ⟨n, hn, hg⟩ | ⟨-, kind, rfl⟩
          · have hfresh : ∀ {name}, n.Binds name d → False := by
              intro name hbound
              obtain ⟨x, hx, hmem⟩ := hbound
              exact hadds.fresh hn ((hlinked.tree.bound hn hx).subset hmem)
            rcases hg.binds hbinds with hold | ⟨-, rfl, l, hl, hname⟩
            · rcases hg.binds hbinds' with hold' | ⟨-, rfl, -⟩
              · exact ih hn hold hold'
              · exact (hfresh hold).elim
            · rcases hg.binds hbinds' with hold' | ⟨-, -, l', hl', hname'⟩
              · exact (hfresh hold').elim
              · rw [← hname, ← hname', Option.some.inj (hl.symm.trans hl')]
          · obtain ⟨x, hx, -⟩ := hbinds
            cases hx

/-- The label was given for the node itself exactly if no node ended before the child came. -/
theorem Traces.head?_iff {events : List Event} (h : Traces events id name c before l between e) :
    (fed before).openNodes.head? = some id ↔ .finish ∉ between := by
  have hlevel := h.level
  have hlinked := linked_fed before
  constructor
  · intro hhead hmem
    have hpos : 0 < between.count .finish := List.count_pos_iff.mpr hmem
    refine hlinked.head?_ne (j := id) ?_ hhead
    rw [← List.drop_one]
    refine List.mem_of_getElem? (i := between.count .finish - 1) ?_
    rw [List.getElem?_drop, Nat.add_sub_cancel' hpos]
    exact hlevel
  · intro hmem
    rw [List.count_eq_zero.mpr hmem] at hlevel
    rw [List.head?_eq_getElem?]
    exact hlevel

/-! ### What becomes of a label -/

/-- What becomes of a label that was given after some events, if since then nodes ended or hidden
text was read. -/
structure Fate (before : List Event) (l : Label) (between : List Event) : Prop where
  /-- As long as no child comes, nothing is bound. -/
  unused : (fed (before ++ .label l :: between)).tree = (fed (before ++ between)).tree
  /-- Another label takes its place. -/
  replaced : ∀ l', fed (before ++ .label l :: between ++ [.label l'])
    = fed (before ++ between ++ [.label l'])
  /-- Outside of all nodes it is lost with the child that comes. -/
  lost : ∀ e c, (fed (before ++ .label l :: between)).brought? e = some c →
    (fed before).openNodes.length ≤ between.count .finish →
    fed (before ++ .label l :: between ++ [e]) = fed (before ++ between ++ [e])
  /-- Otherwise the child that comes is bound, on the node that is the innermost open one by
  then. -/
  bound : ∀ e c id, (fed (before ++ .label l :: between)).brought? e = some c →
    (fed before).openNodes[between.count .finish]? = some id →
    ∃ n n', (fed (before ++ between)).tree.node? id = some n ∧
      (fed (before ++ .label l :: between ++ [e])).tree.node? id = some n' ∧
      n'.children = n.children ++ [c] ∧ n'.bindings = l.bind c n.bindings

theorem fate (before : List Event) (l : Label) {between : List Event}
    (hidle : ∀ x ∈ between, x.Idle) : Fate before l between where
  unused := by
    rw [fed_label hidle]
    rfl
  replaced := by
    intro l'
    rw [fed_concat, fed_concat, fed_label hidle]
    rfl
  lost := by
    intro e c hc hlen
    have hopen : (fed (before ++ between)).openNodes = [] := by
      rw [fed_append, openNodes_foldl_feed hidle]
      exact List.drop_eq_nil_of_le hlen
    have hbare : (fed (before ++ between)).brought? e = some c := by
      cases e <;> rw [fed_label hidle] at hc <;> exact hc
    rw [fed_concat, fed_concat, fed_label hidle]
    exact feed_withLabel_of_top hopen hbare (some l)
  bound := by
    intro e c id hc hlevel
    have hlinked := linked_fed (before ++ .label l :: between)
    have hhead : (fed (before ++ .label l :: between)).openNodes.head? = some id := by
      rw [openNodes_fed_label hidle, List.head?_drop]
      exact hlevel
    obtain ⟨n, hn⟩ := hlinked.exists_node (List.mem_of_mem_head? hhead)
    obtain ⟨n', hn', hg⟩ := (hlinked.ordered.adds hc).kept hn
    have hlabel : (fed (before ++ .label l :: between)).label = some l := by
      rw [fed_label hidle]
      rfl
    refine ⟨n, n', ?_, ?_, hg.children_head hhead, ?_⟩
    · rw [fed_label hidle] at hn
      exact hn
    · rw [fed_concat]
      exact hn'
    · rw [hg.bindings, if_pos hhead]
      simp only [Node.attach, hlabel]

end Builder

/-- In a tree that was built a child is bound to one name at most. -/
theorem Tree.Built.binds_unique {t : Tree} (h : t.Built) {id : NodeId} {n : Node}
    {name name' : String} {c : Child} (hn : t.node? id = some n) (hbinds : n.Binds name c)
    (hbinds' : n.Binds name' c) : name = name' := by
  obtain ⟨events, hevents⟩ := h
  obtain ⟨-, -, rfl⟩ := Builder.toTree_eq_ok_iff.mp hevents
  exact Builder.binds_unique events hn hbinds hbinds'

/-- **A label goes to the next child, wherever that comes.**  Whatever some events bound to a name
on a node comes from a label of that name after which no child came before the bound one.  The label
was given for the node itself exactly if no node ended in between; otherwise it was given for a node
further in, by as many levels as nodes ended.  And a label that is given after the events binds the
next child on the node that is the innermost open one by then, if there is one and no other label
comes first; otherwise the tree is the same as without the label. -/
theorem label_binds_next_child (events : List Event) :
    (∀ (id : NodeId) (n : Node) (name : String) (c : Child),
      (Builder.fed events).tree.node? id = some n → n.Binds name c →
      ∃ before l between e, Builder.Traces events id name c before l between e ∧
        ((Builder.fed before).openNodes.head? = some id ↔ .finish ∉ between)) ∧
    ∀ (l : Label) (between : List Event), (∀ x ∈ between, x.Idle) →
      Builder.Fate events l between := by
  refine ⟨?_, fun l between hidle => Builder.fate events l hidle⟩
  intro id n name c hn hbinds
  obtain ⟨before, l, between, e, htrace⟩ := Builder.exists_traces events hn hbinds
  exact ⟨before, l, between, e, htrace, htrace.head?_iff⟩

/-- A label in an inner node that has no more children, and a token after the end of the node. -/
def strayEvents : List Event :=
  [.start "Outer", .start "Inner", .label (.assign "x"), .finish, .token 1 "t", .finish]

/-- The label is bound on the outer node although no label was given while that was the innermost
open one. -/
theorem label_strays_outward :
    ∃ t n, (Builder.fed strayEvents).toTree = .ok t ∧ t.node? ⟨0⟩ = some n ∧
      n.Binds "x" (.token ⟨0⟩) ∧
      ∀ before l after, strayEvents = before ++ .label l :: after →
        (Builder.fed before).openNodes.head? ≠ some ⟨0⟩ := by
  refine ⟨_, _, rfl, rfl, ⟨.one (.token ⟨0⟩), by decide +kernel, by decide⟩, ?_⟩
  intro before l after h
  have hlate : ∀ es, [Event.finish, .token 1 "t", .finish] ≠ es ++ .label l :: after := by
    intro es hes
    have hmem : Event.label l ∈ [Event.finish, .token 1 "t", .finish] := hes ▸ by simp
    simp at hmem
  rcases before with _ | ⟨e₀, _ | ⟨e₁, _ | ⟨e₂, before⟩⟩⟩
  · simp [strayEvents] at h
  · simp [strayEvents] at h
  · obtain ⟨rfl, rfl, -⟩ : e₀ = .start "Outer" ∧ e₁ = .start "Inner" ∧ _ := by
      simpa [strayEvents, eq_comm] using h
    decide +kernel
  · simp only [strayEvents, List.cons_append, List.cons.injEq] at h
    exact absurd h.2.2.2 (hlate before)

end TreeSchema
