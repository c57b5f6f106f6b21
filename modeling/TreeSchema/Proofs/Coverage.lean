/-
The tokens below a node.

A node names its first and its last token, and its children hold what is really in it.  In a
built tree the two agree: the tokens below a node, from left to right, are all tokens of the
stream from the first to the last.

The proof does not go down the tree.  It is enough that at every node the stretches of its
children, put one after the other, make up its own stretch.  A token that is read extends all
open nodes, and each of them has one place for it: the innermost as a new child, the others at
the end of their last child, which is the next open node.  What is below a node then follows
from the bottom up, for a whole tree at once.
-/
import TreeSchema.Proofs.Linked

namespace TreeSchema

/-- The tokens from the first to the last of a node, as it names them. -/
def Node.stretch (n : Node) : List TokenId :=
  match n.start, n.stop with
  | some first, some last =>
    (List.range' first.index (last.index + 1 - first.index)).map TokenId.mk
  | _, _ => []

namespace Tree

/-- The tokens of a child, as it names them. -/
def stretch (t : Tree) : Child → List TokenId
  | .token x => [x]
  | .node id => ((t.node? id).map Node.stretch).getD []

/-- The tokens below a node from left to right, going down at most `levels` nodes. -/
def leavesWithin (t : Tree) : Nat → NodeId → List TokenId
  | 0, _ => []
  | levels + 1, id =>
    match t.node? id with
    | none => []
    | some n => n.children.flatMap fun
      | .token x => [x]
      | .node c => t.leavesWithin levels c

/-- The tokens below a node from left to right.  No way down has more nodes than the tree. -/
def leaves (t : Tree) (id : NodeId) : List TokenId := t.leavesWithin t.nodes.size id

/-- The tokens that a child is or has below it. -/
def leavesOf (t : Tree) : Child → List TokenId
  | .token x => [x]
  | .node id => t.leaves id

/-- The stretches of children make up those of their parents. -/
structure Tiled (t : Tree) : Prop where
  tiles : ∀ {id n}, t.node? id = some n → n.children.flatMap t.stretch = n.stretch
  /-- A node that names a first token names one that is there. -/
  started : ∀ {id n x}, t.node? id = some n → n.start = some x → x.index < t.tokens.size
  /-- A node that names a last token names a first one, which comes no later. -/
  stopped : ∀ {id n y}, t.node? id = some n → n.stop = some y →
    y.index < t.tokens.size ∧ ∃ x, n.start = some x ∧ x.index ≤ y.index

end Tree

namespace Builder

/-- What holds of a builder: in its tree stretches are made up of stretches, that of an open node
that has begun goes up to the token that was read last, and nodes that wait for a token are closed
and have none. -/
structure Covered (b : Builder) : Prop where
  linked : b.Linked
  tree : b.tree.Tiled
  begun : ∀ {id n x}, id ∈ b.openNodes → b.tree.node? id = some n → n.start = some x →
    ∃ y, n.stop = some y ∧ y.index + 1 = b.tree.tokens.size
  waiting : ∀ {id}, id ∈ b.awaiting → id ∉ b.openNodes ∧
    ∃ n, b.tree.node? id = some n ∧ n.start = none

/-- A node that names a first token after a token was read named it before, or names that one. -/
theorem of_start_receive {b : Builder} {id : NodeId} {n : Node} {x : TokenId}
    (h : (b.receive id n).start = some x) : n.start = some x ∨ x = b.nextToken := by
  rw [start_receive] at h
  by_cases hwaits : id ∈ b.awaiting
  · rw [if_pos hwaits] at h
    exact .inr (Option.some.inj h).symm
  · rw [if_neg hwaits] at h
    by_cases hopen : id ∈ b.openNodes
    · rw [if_pos hopen] at h
      cases hs : n.start with
      | none =>
          rw [hs] at h
          exact .inr (Option.some.inj h).symm
      | some y =>
          rw [hs] at h
          exact .inl h
    · rw [if_neg hopen] at h
      exact .inl h

namespace Covered

variable {b : Builder} {id : NodeId} {n : Node} {kind : String} {type : Int} {text : String}
  (h : b.Covered)

include h

theorem stop_eq_none (hn : b.tree.node? id = some n) (hstart : n.start = none) :
    n.stop = none := by
  cases hstop : n.stop with
  | none => rfl
  | some y =>
      obtain ⟨-, x, hx, -⟩ := h.tree.stopped hn hstop
      rw [hstart] at hx
      cases hx

theorem start_eq_none (hn : b.tree.node? id = some n) (hwaits : id ∈ b.awaiting) :
    n.start = none := by
  obtain ⟨-, m, hm, hnone⟩ := h.waiting hwaits
  obtain rfl : n = m := Option.some.inj (hn.symm.trans hm)
  exact hnone

/-! ### Reading a token -/

/-- A token makes the stretches of the open nodes longer, and no others. -/
theorem stretch_receive (hn : b.tree.node? id = some n) :
    (b.receive id n).stretch =
      n.stretch ++ if id ∈ b.openNodes then [b.nextToken] else [] := by
  have hstart : (b.receive id n).start = _ := start_receive
  have hstop : (b.receive id n).stop = _ := stop_receive
  by_cases hopen : id ∈ b.openNodes
  · have hwaits : id ∉ b.awaiting := fun hw => (h.waiting hw).1 hopen
    rw [if_neg hwaits, if_pos hopen] at hstart
    rw [if_pos hopen] at hstop ⊢
    cases hs : n.start with
    | none =>
        rw [hs] at hstart
        simp [Node.stretch, hstart, hstop, hs]
    | some x =>
        rw [hs] at hstart
        obtain ⟨y, hy, hlast⟩ := h.begun hopen hn hs
        obtain ⟨-, x', hx', hle⟩ := h.tree.stopped hn hy
        obtain rfl : x = x' := Option.some.inj (hs.symm.trans hx')
        have hlength : b.nextToken.index + 1 - x.index = (y.index + 1 - x.index) + 1 := by
          show b.tree.tokens.size + 1 - x.index = _
          omega
        have hnext : x.index + 1 * (y.index + 1 - x.index) = b.tree.tokens.size := by omega
        simp only [Node.stretch, hstart, hstop, hs, hy, Option.some_or, hlength,
          List.range'_concat, hnext, List.map_append]
        rfl
  · rw [if_neg hopen] at hstart hstop ⊢
    rw [List.append_nil]
    by_cases hwaits : id ∈ b.awaiting
    · have hnone := h.stop_eq_none hn (h.start_eq_none hn hwaits)
      simp [Node.stretch, hstop, hnone]
    · rw [if_neg hwaits] at hstart
      simp [Node.stretch, hstart, hstop]

theorem stretch_token (d : Child) :
    (b.token type text).tree.stretch d =
      b.tree.stretch d ++ match d with
        | .node c => if c ∈ b.openNodes then [b.nextToken] else []
        | .token _ => [] := by
  cases d with
  | token y => rfl
  | node c =>
      simp only [Tree.stretch, node?_token, Option.map_map]
      cases hc : b.tree.node? c with
      | none =>
          have hopen : c ∉ b.openNodes := by
            intro hopen
            obtain ⟨m, hm⟩ := h.linked.exists_node hopen
            rw [hc] at hm
            cases hm
          simp [hopen]
      | some m => simpa using h.stretch_receive hc

/-- Children that are all closed have the stretches that they had. -/
theorem flatMap_stretch_token {cs : List Child}
    (hcs : ∀ c, .node c ∈ cs → c ∉ b.openNodes) :
    cs.flatMap (b.token type text).tree.stretch = cs.flatMap b.tree.stretch := by
  refine List.flatMap_congr fun d hd => ?_
  rw [h.stretch_token]
  cases d with
  | token y => simp
  | node c => simp [hcs c hd]

theorem tiled_token {n' : Node} (hn' : (b.token type text).tree.node? id = some n') :
    n'.children.flatMap (b.token type text).tree.stretch = n'.stretch := by
  rw [node?_token] at hn'
  obtain ⟨n, hn, rfl⟩ := Option.map_eq_some_iff.mp hn'
  rw [h.stretch_receive hn, children_receive, ← h.tree.tiles hn]
  by_cases htail : id ∈ b.openNodes.tail
  · -- the token goes to the end of the last child, which is open too
    obtain ⟨cs, c, hcs, hc, hbefore⟩ := h.linked.exists_open_child htail hn
    rw [if_neg (h.linked.head?_ne htail), if_pos (List.mem_of_mem_tail htail), hcs,
      List.append_nil, List.flatMap_append, List.flatMap_append,
      h.flatMap_stretch_token hbefore, List.flatMap_singleton, List.flatMap_singleton,
      h.stretch_token]
    simp [hc]
  · have hclosed : n.children.flatMap (b.token type text).tree.stretch =
        n.children.flatMap b.tree.stretch :=
      h.flatMap_stretch_token fun c hc => h.linked.closed_children htail hn hc
    by_cases hhead : b.openNodes.head? = some id
    · -- the token is a new child
      rw [if_pos hhead, if_pos (List.mem_of_mem_head? hhead), List.flatMap_append, hclosed]
      rfl
    · have hopen : id ∉ b.openNodes := by
        rw [Linked.mem_openNodes_iff]
        simp [hhead, htail]
      rw [if_neg hhead, if_neg hopen, List.append_nil, List.append_nil, hclosed]

/-- After a token every node that names a last one has begun. -/
theorem stopped_token (hn : b.tree.node? id = some n) {y : TokenId}
    (hy : (b.receive id n).stop = some y) :
    y.index < b.tree.tokens.size + 1 ∧
      ∃ x, (b.receive id n).start = some x ∧ x.index ≤ y.index := by
  rw [stop_receive] at hy
  rw [start_receive]
  by_cases hopen : id ∈ b.openNodes
  · have hwaits : id ∉ b.awaiting := fun hw => (h.waiting hw).1 hopen
    rw [if_pos hopen] at hy
    cases hy
    rw [if_neg hwaits, if_pos hopen]
    refine ⟨Nat.lt_succ_self _, ?_⟩
    cases hs : n.start with
    | none => exact ⟨_, rfl, Nat.le_refl _⟩
    | some x => exact ⟨x, rfl, Nat.le_of_lt (h.tree.started hn hs)⟩
  · rw [if_neg hopen] at hy
    obtain ⟨hlt, x, hx, hle⟩ := h.tree.stopped hn hy
    have hwaits : id ∉ b.awaiting := by
      intro hw
      rw [h.start_eq_none hn hw] at hx
      cases hx
    rw [if_neg hwaits, if_neg hopen]
    exact ⟨Nat.lt_succ_of_lt hlt, x, hx, hle⟩

theorem token (type : Int) (text : String) : (b.token type text).Covered := by
  have hsize : (b.token type text).tree.tokens.size = b.tree.tokens.size + 1 := by
    rw [tokens_token, Array.size_push]
  have hold {id n'} (hn' : (b.token type text).tree.node? id = some n') :
      ∃ n, b.tree.node? id = some n ∧ b.receive id n = n' := by
    rw [node?_token] at hn'
    exact Option.map_eq_some_iff.mp hn'
  refine ⟨h.linked.token type text, ⟨h.tiled_token, ?_, ?_⟩, ?_, by simp⟩
  · intro id n' x hn' hx
    obtain ⟨n, hn, rfl⟩ := hold hn'
    rw [hsize]
    rcases of_start_receive hx with hx | rfl
    · have := h.tree.started hn hx
      omega
    · exact Nat.lt_succ_self _
  · intro id n' y hn' hy
    obtain ⟨n, hn, rfl⟩ := hold hn'
    rw [hsize]
    exact h.stopped_token hn hy
  · intro id n' x hid hn' hx
    obtain ⟨n, hn, rfl⟩ := hold hn'
    rw [openNodes_token] at hid
    rw [stop_receive, if_pos hid, hsize]
    exact ⟨b.nextToken, rfl, rfl⟩

/-! ### The other events -/

/-- A node that begins has no tokens, so no stretch changes. -/
theorem stretch_start (d : Child) : (b.start kind).tree.stretch d = b.tree.stretch d := by
  cases d with
  | token y => rfl
  | node c =>
      simp only [Tree.stretch, node?_start h.linked.ordered.openNodes]
      by_cases hc : c = b.nextNode
      · rw [if_pos hc, hc, node?_nextNode]
        rfl
      · rw [if_neg hc, Option.map_map]
        congr 2
        funext m
        show (if _ then _ else _ : Node).stretch = m.stretch
        split <;> rfl

/-- A node that begins, or after another has begun, names the tokens that it named. -/
theorem of_node?_start (hn : (b.start kind).tree.node? id = some n) :
    (n.start = none ∧ n.stop = none) ∨
      ∃ m, b.tree.node? id = some m ∧ n.start = m.start ∧ n.stop = m.stop := by
  rcases Builder.of_node?_start h.linked.ordered.openNodes hn with rfl | ⟨m, hm, rfl⟩
  · exact .inl ⟨rfl, rfl⟩
  · refine .inr ⟨m, hm, ?_⟩
    split <;> exact ⟨rfl, rfl⟩

theorem tiled_start {n' : Node} (hn' : (b.start kind).tree.node? id = some n') :
    n'.children.flatMap (b.start kind).tree.stretch = n'.stretch := by
  rw [funext h.stretch_start]
  rcases Builder.of_node?_start h.linked.ordered.openNodes hn' with rfl | ⟨n, hn, rfl⟩
  · rfl
  · by_cases hhead : b.openNodes.head? = some id
    · -- the new child has nothing in it
      rw [if_pos hhead]
      show (n.children ++ [Child.node b.nextNode]).flatMap b.tree.stretch = n.stretch
      rw [List.flatMap_append, h.tree.tiles hn, List.flatMap_singleton, Tree.stretch,
        node?_nextNode]
      exact List.append_nil _
    · rw [if_neg hhead]
      exact h.tree.tiles hn

theorem waiting_start (hid : id ∈ b.awaiting) :
    id ∉ (b.start kind).openNodes ∧
      ∃ n, (b.start kind).tree.node? id = some n ∧ n.start = none := by
  obtain ⟨hopen, n, hn, hnone⟩ := h.waiting hid
  have hne : id ≠ b.nextNode := by
    rintro rfl
    exact absurd (Tree.index_lt hn) (Nat.lt_irrefl _)
  constructor
  · simp [hne, hopen]
  · rw [node?_start h.linked.ordered.openNodes, if_neg hne, hn]
    refine ⟨_, rfl, ?_⟩
    show (if _ then _ else _ : Node).start = none
    split <;> exact hnone

theorem start (kind : String) : (b.start kind).Covered := by
  refine ⟨h.linked.start kind, ⟨h.tiled_start, ?_, ?_⟩, ?_, ?_⟩
  · intro id n' x hn' hx
    rw [tokens_start]
    rcases h.of_node?_start hn' with ⟨hnone, -⟩ | ⟨n, hn, hstart, -⟩
    · rw [hnone] at hx
      cases hx
    · exact h.tree.started hn (hstart ▸ hx)
  · intro id n' y hn' hy
    rw [tokens_start]
    rcases h.of_node?_start hn' with ⟨-, hnone⟩ | ⟨n, hn, hstart, hstop⟩
    · rw [hnone] at hy
      cases hy
    · rw [hstart]
      exact h.tree.stopped hn (hstop ▸ hy)
  · intro id n' x hid hn' hx
    rw [tokens_start]
    rcases h.of_node?_start hn' with ⟨hnone, -⟩ | ⟨n, hn, hstart, hstop⟩
    · rw [hnone] at hx
      cases hx
    · rw [hstop]
      rw [openNodes_start] at hid
      rcases List.mem_cons.mp hid with rfl | hid
      · exact absurd (Tree.index_lt hn) (Nat.lt_irrefl _)
      · exact h.begun hid hn (hstart ▸ hx)
  · intro id hid
    rw [awaiting_start] at hid
    exact h.waiting_start hid

/-- A node that ends waits for a token if it has none. -/
theorem finish : (b.feed .finish).Covered := by
  have hlinked := h.linked.finish
  cases hopen : b.openNodes with
  | nil =>
      rw [feed_finish_nil hopen]
      exact h
  | cons id rest =>
      have hfalling := h.linked.falling
      obtain ⟨n, hn⟩ : ∃ n, b.tree.node? id = some n :=
        h.linked.exists_node (by simp [hopen])
      rw [hopen] at hfalling
      have hid : id ∉ rest := by
        intro hmem
        exact absurd ((List.pairwise_cons.mp hfalling).1 id hmem) (Nat.lt_irrefl _)
      rw [feed_finish_cons hopen, hn] at hlinked ⊢
      refine ⟨hlinked, h.tree, ?_, ?_⟩
      · intro j m x hj hm hx
        exact h.begun (hopen ▸ List.mem_cons_of_mem _ hj) hm hx
      · intro j hj
        have hold : j ∈ b.awaiting → j ∉ rest ∧ ∃ m, b.tree.node? j = some m ∧ m.start = none := by
          intro hj
          obtain ⟨hclosed, hnode⟩ := h.waiting hj
          rw [hopen, List.mem_cons, not_or] at hclosed
          exact ⟨hclosed.2, hnode⟩
        by_cases hstart : n.start = none
        · simp only [Option.bind_some, hstart, Option.isNone_none, if_true] at hj
          rcases List.mem_append.mp hj with hj | hj
          · exact hold hj
          · rw [List.mem_singleton.mp hj]
            exact ⟨hid, n, hn, hstart⟩
        · simp only [Option.bind_some, Option.isNone_iff_eq_none, hstart, if_false] at hj
          exact hold hj

theorem feed (e : Event) : (b.feed e).Covered := by
  have hlinked := h.linked.feed e
  cases e with
  | start kind => exact h.start kind
  | finish => exact h.finish
  | label l => exact ⟨hlinked, h.tree, h.begun, h.waiting⟩
  | token type text => exact h.token type text
  | hidden text => exact ⟨hlinked, h.tree, h.begun, h.waiting⟩

end Covered

theorem covered_initial : Builder.initial.Covered := by
  refine ⟨linked_initial, ⟨?_, ?_, ?_⟩, ?_, ?_⟩ <;> intros <;>
    simp_all [initial, Tree.empty, Tree.node?]

theorem covered_fed (events : List Event) : (fed events).Covered :=
  fed_induction (P := fun _ b => b.Covered) covered_initial (fun _ e h => h.feed e) events

end Builder

/-! ### What is below a node -/

namespace Tree

variable {t : Tree} {id : NodeId} {n : Node} {x y : TokenId}

theorem Built.tiled (h : t.Built) : t.Tiled := by
  obtain ⟨events, h⟩ := h
  obtain ⟨-, -, rfl⟩ := Builder.toTree_eq_ok_iff.mp h
  exact (Builder.covered_fed events).tree

theorem Built.linked (h : t.Built) : t.Linked := by
  obtain ⟨events, h⟩ := h
  obtain ⟨-, -, rfl⟩ := Builder.toTree_eq_ok_iff.mp h
  exact (Builder.linked_fed events).tree

/-- The tokens below a node are its stretch, once there are levels enough: a child comes after
its parent, so there are as many levels as nodes after the node. -/
theorem leavesWithin_eq (ho : t.Ordered) (ht : t.Tiled) :
    ∀ (levels : Nat) (id : NodeId), t.nodes.size ≤ levels + id.index →
      t.leavesWithin levels id = t.stretch (.node id) := by
  intro levels
  induction levels with
  | zero =>
      intro id hlevels
      rw [leavesWithin, stretch, node?_eq_none (by omega)]
      rfl
  | succ levels ih =>
      intro id hlevels
      cases hn : t.node? id with
      | none => simp [leavesWithin, stretch, hn]
      | some n =>
          simp only [leavesWithin, stretch, hn, Option.map_some, Option.getD_some]
          rw [← ht.tiles hn]
          refine List.flatMap_congr fun c hc => ?_
          cases c with
          | token x => rfl
          | node c =>
              obtain ⟨hlt, -⟩ := ho.child hn hc
              exact ih c (by omega)

theorem leaves_eq_nil (hn : t.node? id = none) : t.leaves id = [] := by
  unfold leaves
  cases t.nodes.size <;> simp [leavesWithin, hn]

theorem Built.leaves_eq_stretch (h : t.Built) (hn : t.node? id = some n) :
    t.leaves id = n.stretch := by
  rw [leaves, leavesWithin_eq h.ordered h.tiled _ _ (by omega), stretch, hn]
  rfl

/-- The tokens below a node are those of its children, one child after the other. -/
theorem Built.leaves_eq_flatMap (h : t.Built) (hn : t.node? id = some n) :
    t.leaves id = n.children.flatMap t.leavesOf := by
  rw [h.leaves_eq_stretch hn, ← h.tiled.tiles hn]
  refine List.flatMap_congr fun c hc => ?_
  cases c with
  | token x => rfl
  | node c =>
      obtain ⟨m, hm⟩ := node?_of_lt (h.ordered.child hn hc).2
      simp [stretch, leavesOf, h.leaves_eq_stretch hm, hm]

end Tree

/-- A node that names both its ends has the tokens between them. -/
theorem Node.stretch_eq {n : Node} {x y : TokenId} (hx : n.start = some x)
    (hy : n.stop = some y) :
    n.stretch = (List.range' x.index (y.index + 1 - x.index)).map TokenId.mk := by
  simp [stretch, hx, hy]

theorem Tree.Tiled.stretch_eq_nil_iff {t : Tree} {id : NodeId} {n : Node} (h : t.Tiled)
    (hn : t.node? id = some n) : n.stretch = [] ↔ n.stop = none := by
  cases hy : n.stop with
  | none => cases hx : n.start <;> simp [Node.stretch, hx, hy]
  | some y =>
      obtain ⟨-, x, hx, hle⟩ := h.stopped hn hy
      simp only [Node.stretch_eq hx hy, List.map_eq_nil_iff, List.range'_eq_nil_iff, reduceCtorEq,
        iff_false]
      omega

end TreeSchema
