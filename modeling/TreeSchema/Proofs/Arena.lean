/-
Built trees are well formed.

Whatever is reported to a builder, the tree that it finishes is one tree: it has a root unless
it has no nodes, every other node is below exactly one node that comes before it, and every
number in it denotes something.  Read from left to right, the tokens in it come in the order of
the stream.

Whether a tree can be finished is read off the events alone, by counting the nodes that are
open and those that began while none was.
-/
import TreeSchema.Proofs.Coverage

namespace TreeSchema

/-! ### Counting the open nodes -/

/-- How many nodes have begun and not ended, and how many began outside of all others. -/
structure Nesting where
  depth : Nat
  tops : Nat
  deriving DecidableEq

namespace Nesting

/-- The count after one more event.  An end outside of all nodes ends nothing. -/
def after (c : Nesting) : Event → Nesting
  | .start _ => ⟨c.depth + 1, if c.depth = 0 then c.tops + 1 else c.tops⟩
  | .finish => { c with depth := c.depth - 1 }
  | .label _ | .token .. | .hidden _ => c

/-- The count for a row of events. -/
def ofEvents (events : List Event) : Nesting := events.foldl after ⟨0, 0⟩

theorem ofEvents_concat (events : List Event) (e : Event) :
    ofEvents (events ++ [e]) = (ofEvents events).after e := by
  simp [ofEvents]

end Nesting

namespace Builder

variable {b : Builder} {c : Nesting} {id : NodeId} {n : Node}

/-- What holds of a builder: it has as many open nodes as counted, the first node at the top is
the root, and it is the only node without a parent unless another one began at the top. -/
structure Counted (b : Builder) (c : Nesting) : Prop where
  linked : b.Linked
  depth : b.openNodes.length = c.depth
  empty : c.tops = 0 → b.tree.nodes.size = 0
  root : b.tree.root = if c.tops = 0 then none else some ⟨0⟩
  extra : b.extraRoot = none ↔ c.tops ≤ 1
  orphan : c.tops ≤ 1 → ∀ {id n}, b.tree.node? id = some n → n.parent = none → id = ⟨0⟩

theorem counted_initial : Builder.initial.Counted ⟨0, 0⟩ where
  linked := linked_initial
  depth := rfl
  empty _ := rfl
  root := rfl
  extra := by simp [initial]
  orphan := by
    intro _ id n hn
    exact absurd (Tree.index_lt hn) (Nat.not_lt_zero _)

namespace Counted

variable (h : b.Counted c)

include h

theorem start (kind : String) : (b.start kind).Counted (c.after (.start kind)) := by
  have hdepth : c.depth = 0 ↔ b.openNodes = [] := by
    rw [← h.depth]
    exact List.length_eq_zero_iff
  have htops : b.openNodes ≠ [] → c.tops ≠ 0 := by
    intro hopen htops
    obtain ⟨id, hid⟩ := List.exists_mem_of_ne_nil _ hopen
    have := h.linked.ordered.openNodes id hid
    have := h.empty htops
    omega
  have hroot := h.root
  have hextra := h.extra
  refine ⟨h.linked.start kind, by simp [Nesting.after, h.depth], ?_, ?_, ?_, ?_⟩
  · by_cases hopen : b.openNodes = []
    · simp [Nesting.after, hdepth, hopen]
    · simp [Nesting.after, hdepth, hopen, htops]
  · rw [root_start]
    by_cases hopen : b.openNodes = []
    · by_cases hzero : c.tops = 0
      · have hnext : b.nextNode = ⟨0⟩ := NodeId.ext_iff.mpr (h.empty hzero)
        simp [Nesting.after, hdepth, hopen, hroot, hzero, hnext]
      · simp [Nesting.after, hdepth, hopen, hroot, hzero]
    · simp [Nesting.after, hdepth, hopen, hroot]
  · rw [extraRoot_start, hroot]
    by_cases hopen : b.openNodes = []
    · by_cases hzero : c.tops = 0
      · simp [Nesting.after, hdepth, hopen, hzero, hextra]
      · simp [Nesting.after, hdepth, hopen, hzero]
    · simp [Nesting.after, hdepth, hopen, hextra]
  · intro hone id n hn hparent
    have hle : c.tops ≤ 1 := by
      refine Nat.le_trans ?_ hone
      show c.tops ≤ if c.depth = 0 then c.tops + 1 else c.tops
      split <;> omega
    rcases (h.linked.ordered.adds_start kind).cases hn with ⟨m, hm, hg⟩ | ⟨hid, kind, rfl⟩
    · exact h.orphan hle hm (hg.parent ▸ hparent)
    · -- the new node is at the top, so it is the first of all
      cases hid
      have hopen : b.openNodes = [] := List.head?_eq_none_iff.mp hparent
      rw [Nesting.after, hdepth.mpr hopen] at hone
      exact NodeId.ext_iff.mpr (h.empty (Nat.le_zero.mp (Nat.le_of_succ_le_succ hone)))

theorem token (type : Int) (text : String) :
    (b.token type text).Counted (c.after (.token type text)) := by
  refine ⟨h.linked.token type text, h.depth, ?_, ?_, h.extra, ?_⟩
  · rw [size_nodes_token]
    exact h.empty
  · rw [root_token]
    exact h.root
  · intro hone id n hn hparent
    rcases (h.linked.ordered.adds_token type text).cases hn with ⟨m, hm, hg⟩ | ⟨hid, -⟩
    · exact h.orphan hone hm (hg.parent ▸ hparent)
    · cases hid

theorem finish : (b.feed .finish).Counted (c.after .finish) := by
  have hlinked := h.linked.finish
  have hdepth := h.depth
  cases hopen : b.openNodes with
  | nil =>
      rw [feed_finish_nil hopen] at hlinked ⊢
      rw [hopen] at hdepth
      refine ⟨hlinked, ?_, h.empty, h.root, h.extra, h.orphan⟩
      simp [Nesting.after, hopen, ← hdepth]
  | cons id rest =>
      rw [feed_finish_cons hopen] at hlinked ⊢
      rw [hopen] at hdepth
      refine ⟨hlinked, ?_, h.empty, h.root, h.extra, h.orphan⟩
      simp [Nesting.after, ← hdepth]

theorem feed (e : Event) : (b.feed e).Counted (c.after e) := by
  have hlinked := h.linked.feed e
  cases e with
  | start kind => exact h.start kind
  | finish => exact h.finish
  | label l => exact ⟨hlinked, h.depth, h.empty, h.root, h.extra, h.orphan⟩
  | token type text => exact h.token type text
  | hidden text => exact ⟨hlinked, h.depth, h.empty, h.root, h.extra, h.orphan⟩

end Counted

theorem counted_fed (events : List Event) : (fed events).Counted (.ofEvents events) := by
  refine fed_induction (P := fun events b => b.Counted (.ofEvents events)) counted_initial ?_ events
  intro events e h
  rw [Nesting.ofEvents_concat]
  exact h.feed e

namespace Counted

variable (h : b.Counted c)

include h

theorem root_eq (hid : b.tree.root = some id) : id = ⟨0⟩ := by
  rw [h.root] at hid
  by_cases hzero : c.tops = 0
  · rw [if_pos hzero] at hid
    cases hid
  · rw [if_neg hzero] at hid
    exact (Option.some.inj hid).symm

theorem root_of_node (hn : b.tree.node? id = some n) : b.tree.root = some ⟨0⟩ := by
  rw [h.root, if_neg]
  intro hzero
  have := h.empty hzero
  have := Tree.index_lt hn
  omega

/-- If no second node began at the top, the root is the one node without a parent. -/
theorem parent_eq_none_iff (hone : c.tops ≤ 1) (hn : b.tree.node? id = some n) :
    n.parent = none ↔ b.tree.root = some id := by
  constructor
  · intro hnone
    rw [h.root_of_node hn, h.orphan hone hn hnone]
  · intro hid
    cases hp : n.parent with
    | none => rfl
    | some p =>
        obtain ⟨m, hm, hmem⟩ := h.linked.tree.parent hn hp
        have hlt := (h.linked.ordered.tree.child hm hmem).1
        rw [h.root_eq hid] at hlt
        exact absurd hlt (Nat.not_lt_zero _)

end Counted

/-- A tree is finished if every node has ended that began, and one at most began at the top. -/
theorem exists_toTree_iff (events : List Event) :
    (∃ t, (fed events).toTree = .ok t) ↔
      (Nesting.ofEvents events).depth = 0 ∧ (Nesting.ofEvents events).tops ≤ 1 := by
  have h := counted_fed events
  simp only [toTree_eq_ok_iff, ← h.extra, ← h.depth, List.length_eq_zero_iff]
  constructor
  · rintro ⟨t, hopen, hextra, -⟩
    exact ⟨hopen, hextra⟩
  · rintro ⟨hopen, hextra⟩
    exact ⟨_, hopen, hextra, rfl⟩

end Builder

/-! ### Well-formed trees -/

namespace Tree

variable {t : Tree} {id : NodeId} {n : Node} {x : TokenId}

/-- A child is in the tree. -/
def Has (t : Tree) : Child → Prop
  | .node id => id.index < t.nodes.size
  | .token x => x.index < t.tokens.size

/-- The children of all nodes. -/
def attached (t : Tree) : List Child := t.nodes.toList.flatMap Node.children

/-- A tree is one tree, every number in it denotes something, and its tokens come in order. -/
structure WellFormed (t : Tree) : Prop where
  root : ∀ {id}, t.root = some id → id = ⟨0⟩ ∧ 0 < t.nodes.size
  /-- The root alone has no parent. -/
  top : ∀ {id n}, t.node? id = some n → (n.parent = none ↔ t.root = some id)
  parent : ∀ {id n p}, t.node? id = some n → n.parent = some p → p.index < id.index
  children : ∀ {id n c}, t.node? id = some n → c ∈ n.children → t.Has c
  start : ∀ {id n x}, t.node? id = some n → n.start = some x → x.index < t.tokens.size
  stop : ∀ {id n x}, t.node? id = some n → n.stop = some x → x.index < t.tokens.size
  /-- Every other node is a child once, of its parent. -/
  once : ∀ {id n p}, t.node? id = some n → n.parent = some p →
    t.attached.count (.node id) = 1 ∧ ∃ m, t.node? p = some m ∧ .node id ∈ m.children
  sorted : ∀ {id n}, t.node? id = some n → n.nodesBelow.Pairwise (·.index < ·.index)
  tokens : ∀ x, t.attached.count (.token x) ≤ 1
  /-- From left to right there are the tokens that are children, in the order of the stream. -/
  leaves : ∀ {id}, t.root = some id →
    (∀ x, x ∈ t.leaves id ↔ .token x ∈ t.attached) ∧ (t.leaves id).Pairwise (·.index < ·.index)
  /-- What is bound to a name is in the tree, and is some of the children in their order. -/
  bindings : ∀ {id n name b}, t.node? id = some n → n.bindings.find? name = some b →
    (∀ c ∈ (Filling.ofBinding b).toList, t.Has c) ∧
      (Filling.ofBinding b).toList.Sublist n.children ∧ (Filling.ofBinding b).toList.Nodup

theorem mem_attached_iff {c : Child} :
    c ∈ t.attached ↔ ∃ id n, t.node? id = some n ∧ c ∈ n.children := by
  unfold attached
  rw [List.mem_flatMap]
  constructor
  · rintro ⟨n, hn, hc⟩
    obtain ⟨i, hi, rfl⟩ := List.mem_iff_getElem.mp hn
    exact ⟨⟨i⟩, _, Array.getElem?_eq_getElem (by simpa using hi), hc⟩
  · rintro ⟨id, n, hn, hc⟩
    exact ⟨n, (Array.mem_of_getElem? hn).val, hc⟩

/-- Nothing is a child twice. -/
theorem Linked.nodup_attached (h : t.Linked) : t.attached.Nodup := by
  have hnode {i : Nat} (hi : i < t.nodes.toList.length) :
      t.node? ⟨i⟩ = some t.nodes.toList[i] :=
    Array.getElem?_eq_getElem (by simpa using hi)
  unfold attached
  rw [List.nodup_flatMap]
  constructor
  · intro n hn
    obtain ⟨i, hi, rfl⟩ := List.mem_iff_getElem.mp hn
    exact h.nodup (hnode hi)
  · rw [List.pairwise_iff_getElem]
    intro i j hi hj hij c hci hcj
    suffices hsame : (⟨i⟩ : NodeId) = ⟨j⟩ by
      cases hsame
      exact absurd hij (Nat.lt_irrefl _)
    cases c with
    | token x => exact h.apart (hnode hi) (hnode hj) hci hcj
    | node c =>
        obtain ⟨m, hm, hparent⟩ := h.child (hnode hi) hci
        obtain ⟨m', hm', hparent'⟩ := h.child (hnode hj) hcj
        obtain rfl : m = m' := Option.some.inj (hm.symm.trans hm')
        exact Option.some.inj (hparent.symm.trans hparent')

theorem Ordered.has (h : t.Ordered) {c : Child} (hn : t.node? id = some n)
    (hc : c ∈ n.children) : t.Has c := by
  have hleads := h.child hn hc
  cases c with
  | node c => exact hleads.2
  | token x => exact hleads

/-! ### Reading from left to right -/

/-- What is found on the way down is a child. -/
theorem Built.mem_attached_of_mem_leaves (h : t.Built) :
    ∀ (levels : Nat) {id : NodeId}, t.nodes.size ≤ levels + id.index → x ∈ t.leaves id →
      .token x ∈ t.attached := by
  intro levels
  induction levels with
  | zero =>
      intro id hlevels hx
      rw [leaves_eq_nil (node?_eq_none (by omega))] at hx
      cases hx
  | succ levels ih =>
      intro id hlevels hx
      cases hn : t.node? id with
      | none =>
          rw [leaves_eq_nil hn] at hx
          cases hx
      | some n =>
          rw [h.leaves_eq_flatMap hn, List.mem_flatMap] at hx
          obtain ⟨c, hc, hx⟩ := hx
          cases c with
          | token y =>
              rw [leavesOf, List.mem_singleton] at hx
              exact mem_attached_iff.mpr ⟨id, n, hn, hx ▸ hc⟩
          | node c =>
              obtain ⟨hlt, -⟩ := h.ordered.child hn hc
              exact ih (by omega) hx

/-- What is below a node is below all nodes above it, and so below the root. -/
theorem Built.mem_leaves_root (h : t.Built) {root : NodeId}
    (htop : ∀ id n, t.node? id = some n → n.parent = none → id = root) :
    ∀ (i : Nat) {id : NodeId}, id.index = i → (∃ n, t.node? id = some n) → x ∈ t.leaves id →
      x ∈ t.leaves root := by
  intro i
  induction i using Nat.strong_induction_on with
  | h i ih =>
      rintro id rfl ⟨n, hn⟩ hx
      cases hparent : n.parent with
      | none => exact htop id n hn hparent ▸ hx
      | some p =>
          obtain ⟨m, hm, hmem⟩ := h.linked.parent hn hparent
          refine ih p.index (h.ordered.child hm hmem).1 rfl ⟨m, hm⟩ ?_
          rw [h.leaves_eq_flatMap hm, List.mem_flatMap]
          exact ⟨.node id, hmem, hx⟩

/-- The tokens below a node come in the order of the stream. -/
theorem Built.pairwise_leaves (h : t.Built) (hn : t.node? id = some n) :
    (t.leaves id).Pairwise (·.index < ·.index) := by
  rw [h.leaves_eq_stretch hn]
  unfold Node.stretch
  split
  · rw [List.pairwise_map]
    exact List.pairwise_lt_range'
  · exact List.Pairwise.nil

/-- In a tree whose root is its first node and the only one without a parent, all is below the
root. -/
theorem Built.mem_leaves_iff (h : t.Built) {root : NodeId}
    (htop : ∀ id n, t.node? id = some n → n.parent = none → id = root) (x : TokenId) :
    x ∈ t.leaves root ↔ .token x ∈ t.attached := by
  constructor
  · exact h.mem_attached_of_mem_leaves t.nodes.size (by omega)
  · intro hx
    obtain ⟨id, n, hn, hmem⟩ := mem_attached_iff.mp hx
    refine h.mem_leaves_root htop id.index rfl ⟨n, hn⟩ ?_
    rw [h.leaves_eq_flatMap hn, List.mem_flatMap]
    exact ⟨.token x, hmem, List.mem_singleton_self x⟩

/--
**Built trees are well formed.**  Whatever events a builder is given, those that cannot be being
passed over, it finishes a tree exactly if every node that began has ended and no second one began
at the top, and the tree that it finishes is well formed.
-/
theorem built_wellFormed (events : List Event) :
    ((∃ t, (Builder.fed events).toTree = .ok t) ↔
      (Nesting.ofEvents events).depth = 0 ∧ (Nesting.ofEvents events).tops ≤ 1) ∧
    ∀ t, (Builder.fed events).toTree = .ok t → t.WellFormed := by
  refine ⟨Builder.exists_toTree_iff events, ?_⟩
  intro t ht
  have hbuilt : t.Built := ⟨events, ht⟩
  have hordered := hbuilt.ordered
  have hlinked := hbuilt.linked
  have hcounted := Builder.counted_fed events
  obtain ⟨-, hextra, rfl⟩ := Builder.toTree_eq_ok_iff.mp ht
  have hone := hcounted.extra.mp hextra
  constructor
  · intro id hid
    have hlt := hordered.root hid
    rw [hcounted.root_eq hid] at hlt ⊢
    exact ⟨rfl, hlt⟩
  · exact hcounted.parent_eq_none_iff hone
  · intro id n p hn hp
    obtain ⟨m, hm, hmem⟩ := hlinked.parent hn hp
    exact (hordered.child hm hmem).1
  · exact hordered.has
  · exact hbuilt.tiled.started
  · intro id n y hn hy
    exact (hbuilt.tiled.stopped hn hy).1
  · intro id n p hn hp
    obtain ⟨m, hm, hmem⟩ := hlinked.parent hn hp
    have hattached := mem_attached_iff.mpr ⟨p, m, hm, hmem⟩
    exact ⟨List.count_eq_one_of_mem hlinked.nodup_attached hattached, m, hm, hmem⟩
  · exact hlinked.sorted
  · intro x
    exact List.nodup_iff_count_le_one.mp hlinked.nodup_attached _
  · intro id hid
    obtain ⟨n, hn⟩ := node?_of_lt (hordered.root hid)
    rw [hcounted.root_eq hid] at hn ⊢
    exact ⟨hbuilt.mem_leaves_iff fun _ _ => hcounted.orphan hone, hbuilt.pairwise_leaves hn⟩
  · intro id n name x hn hx
    have hsublist := hlinked.bound hn hx
    have hthere : ∀ c ∈ (Filling.ofBinding x).toList, (Builder.fed events).tree.Has c :=
      fun c hc => hordered.has hn (hsublist.subset hc)
    exact ⟨hthere, hsublist, (hlinked.nodup hn).sublist hsublist⟩

/-- A block whose first item becomes the head of a list, and an end that nothing began. -/
def blockEvents : List Event :=
  [.finish, .start "Block", .label (.assign "items"), .start "Item", .finish,
    .label (.append "items"), .token 1 "a", .hidden " ", .label (.append "items"), .token 1 "b",
    .finish]

/-- The block is finished, and its list holds its three children. -/
theorem built_wellFormed_block :
    ∃ t block, (Builder.fed blockEvents).toTree = .ok t ∧ t.WellFormed ∧
      t.node? ⟨0⟩ = some block ∧
      block.bindings.find? "items" = some (.many [.node ⟨1⟩, .token ⟨0⟩, .token ⟨1⟩]) := by
  obtain ⟨hfinished, hwf⟩ := built_wellFormed blockEvents
  obtain ⟨t, ht⟩ := hfinished.mpr (by decide)
  have hblock : ((Builder.fed blockEvents).tree.node? ⟨0⟩).map (·.bindings.find? "items") =
      some (some (.many [.node ⟨1⟩, .token ⟨0⟩, .token ⟨1⟩])) := by decide +kernel
  obtain ⟨-, -, rfl⟩ := Builder.toTree_eq_ok_iff.mp ht
  obtain ⟨block, hnode, hitems⟩ := Option.map_eq_some_iff.mp hblock
  exact ⟨_, block, ht, hwf _ ht, hnode, hitems⟩

end Tree

end TreeSchema
