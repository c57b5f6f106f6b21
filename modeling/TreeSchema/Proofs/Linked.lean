/-
Nodes and their children.

A node is attached when it begins, to the node that is open then, and nowhere else.  So the
links of a tree that is being built agree: a node is among the children of its parent, once,
and among those of no other node.  Children are attached in the order in which they come, so
their numbers increase, and a label is bound to a child at the moment when that is attached,
so what is bound is part of the children in their order.

The open nodes lie on one way down from the top: each is the last child of the next one out.
-/
import TreeSchema.Element.Filling
import TreeSchema.Proofs.Conforming
import TreeSchema.Proofs.Feeding

namespace TreeSchema

namespace Tree

/-- The links between the nodes of a tree agree. -/
structure Linked (t : Tree) : Prop where
  /-- A node is among the children of its parent. -/
  parent : ∀ {id n p}, t.node? id = some n → n.parent = some p →
    ∃ m, t.node? p = some m ∧ .node id ∈ m.children
  /-- The children of a node have it for their parent. -/
  child : ∀ {id n c}, t.node? id = some n → .node c ∈ n.children →
    ∃ m, t.node? c = some m ∧ m.parent = some id
  /-- No token is below two nodes. -/
  apart : ∀ {i j n m x}, t.node? i = some n → t.node? j = some m →
    .token x ∈ n.children → .token x ∈ m.children → i = j
  /-- No child comes twice. -/
  nodup : ∀ {id n}, t.node? id = some n → n.children.Nodup
  /-- Nodes that begin later have higher numbers. -/
  sorted : ∀ {id n}, t.node? id = some n → n.nodesBelow.Pairwise (·.index < ·.index)
  /-- What is bound to a name is some of the children, in their order. -/
  bound : ∀ {id n name x}, t.node? id = some n → n.bindings.find? name = some x →
    (Filling.ofBinding x).toList.Sublist n.children

end Tree

/-! ### Binding a label -/

theorem Label.bound_bind (l : Label) (c : Child) {cs : List Child}
    {bindings : FinMap String Binding}
    (h : ∀ {name x}, bindings.find? name = some x → (Filling.ofBinding x).toList.Sublist cs)
    {name : String} {x : Binding} (hx : (l.bind c bindings).find? name = some x) :
    (Filling.ofBinding x).toList.Sublist (cs ++ [c]) := by
  have hold : ∀ {x}, bindings.find? name = some x →
      (Filling.ofBinding x).toList.Sublist (cs ++ [c]) := by
    intro x hx
    exact (h hx).trans (List.sublist_append_left cs [c])
  have hnew : [c].Sublist (cs ++ [c]) := List.sublist_append_right cs [c]
  cases l with
  | assign label =>
      rw [Label.bind, FinMap.find?_insert] at hx
      by_cases hname : label = name
      · rw [if_pos hname] at hx
        cases hx
        exact hnew
      · rw [if_neg hname] at hx
        exact hold hx
  | append label =>
      simp only [Label.bind] at hx
      rw [FinMap.find?_insert] at hx
      by_cases hname : label = name
      · rw [if_pos hname, Option.some.injEq] at hx
        subst hx
        cases hfind : bindings.find? label with
        | none => exact hnew
        | some y =>
            have hy := h hfind
            cases y with
            | one first => exact hy.append (List.Sublist.refl [c])
            | many ds => exact hy.append (List.Sublist.refl [c])
      · rw [if_neg hname] at hx
        exact hold hx

/-! ### Adding a child -/

theorem Node.nodesBelow_append {n n' : Node} {c : Child} (h : n'.children = n.children ++ [c]) :
    n'.nodesBelow = n.nodesBelow ++ match c with
      | .node id => [id]
      | .token _ => [] := by
  cases c <;> simp [nodesBelow, h]

theorem Node.mem_nodesBelow_iff {n : Node} {id : NodeId} :
    id ∈ n.nodesBelow ↔ .node id ∈ n.children := by
  unfold nodesBelow
  rw [List.mem_filterMap]
  constructor
  · rintro ⟨c, hc, hid⟩
    cases c <;> cases hid
    exact hc
  · intro h
    exact ⟨.node id, h, rfl⟩

namespace Builder

variable {b b' : Builder} {c d : Child} {j : NodeId} {n n' : Node}

theorem Gains.mem_iff (h : b.Gains c j n n') :
    d ∈ n'.children ↔ d ∈ n.children ∨ b.openNodes.head? = some j ∧ d = c := by
  rw [h.children, List.mem_append]
  by_cases hhead : b.openNodes.head? = some j <;> simp [hhead]

/-- A node that got no child has the children that it had. -/
theorem Gains.children_eq (h : b.Gains c j n n') (hj : b.openNodes.head? ≠ some j) :
    n'.children = n.children := by
  rw [h.children, if_neg hj, List.append_nil]

theorem Gains.children_head (h : b.Gains c j n n') (hj : b.openNodes.head? = some j) :
    n'.children = n.children ++ [c] := by
  rw [h.children, if_pos hj]

section Adds

variable (ha : Adds b b' c) (h : b.tree.Linked)

include ha h

theorem Adds.parent (hopen : ∀ id ∈ b.openNodes, ∃ n, b.tree.node? id = some n) {p : NodeId}
    (hn' : b'.tree.node? j = some n') (hp : n'.parent = some p) :
    ∃ m, b'.tree.node? p = some m ∧ .node j ∈ m.children := by
  rcases ha.cases hn' with ⟨n, hn, hg⟩ | ⟨hc, kind, rfl⟩
  · obtain ⟨m, hm, hmem⟩ := h.parent hn (hg.parent ▸ hp)
    obtain ⟨m', hm', hgm⟩ := ha.kept hm
    exact ⟨m', hm', hgm.mem_iff.mpr (.inl hmem)⟩
  · obtain ⟨m, hm⟩ := hopen p (List.mem_of_mem_head? hp)
    obtain ⟨m', hm', hgm⟩ := ha.kept hm
    exact ⟨m', hm', hgm.mem_iff.mpr (.inr ⟨hp, hc.symm⟩)⟩

theorem Adds.child {k : NodeId} (hn' : b'.tree.node? j = some n') (hk : .node k ∈ n'.children) :
    ∃ m, b'.tree.node? k = some m ∧ m.parent = some j := by
  rcases ha.cases hn' with ⟨n, hn, hg⟩ | ⟨-, kind, rfl⟩
  · rcases hg.mem_iff.mp hk with hold | ⟨hhead, hnew⟩
    · obtain ⟨m, hm, hparent⟩ := h.child hn hold
      obtain ⟨m', hm', hgm⟩ := ha.kept hm
      exact ⟨m', hm', hgm.parent.trans hparent⟩
    · obtain ⟨kind, hm⟩ := ha.new hnew.symm
      exact ⟨_, hm, hhead⟩
  · cases hk

theorem Adds.apart {i : NodeId} {m' : Node} {x : TokenId} (hn' : b'.tree.node? i = some n')
    (hm' : b'.tree.node? j = some m') (hx : .token x ∈ n'.children)
    (hy : .token x ∈ m'.children) : i = j := by
  rcases ha.cases hn' with ⟨n, hn, hg⟩ | ⟨-, kind, rfl⟩
  · rcases ha.cases hm' with ⟨m, hm, hgm⟩ | ⟨-, kind, rfl⟩
    · rcases hg.mem_iff.mp hx with hx | ⟨hi, rfl⟩
      · rcases hgm.mem_iff.mp hy with hy | ⟨-, rfl⟩
        · exact h.apart hn hm hx hy
        · exact absurd hx (ha.fresh hn)
      · rcases hgm.mem_iff.mp hy with hy | ⟨hj, -⟩
        · exact absurd hy (ha.fresh hm)
        · exact Option.some.inj (hi.symm.trans hj)
    · cases hy
  · cases hx

theorem Adds.nodup (hn' : b'.tree.node? j = some n') : n'.children.Nodup := by
  rcases ha.cases hn' with ⟨n, hn, hg⟩ | ⟨-, kind, rfl⟩
  · by_cases hhead : b.openNodes.head? = some j
    · rw [hg.children_head hhead, ← List.concat_eq_append]
      exact (h.nodup hn).concat (ha.fresh hn)
    · rw [hg.children_eq hhead]
      exact h.nodup hn
  · exact List.nodup_nil

theorem Adds.sorted (hn' : b'.tree.node? j = some n') :
    n'.nodesBelow.Pairwise (·.index < ·.index) := by
  rcases ha.cases hn' with ⟨n, hn, hg⟩ | ⟨-, kind, rfl⟩
  · by_cases hhead : b.openNodes.head? = some j
    · rw [Node.nodesBelow_append (hg.children_head hhead)]
      refine List.pairwise_append.mpr ⟨h.sorted hn, ?_, ?_⟩
      · cases c <;> simp
      · intro i hi k hk
        obtain ⟨m, hm, -⟩ := h.child hn (Node.mem_nodesBelow_iff.mp hi)
        cases c with
        | token x => cases hk
        | node id =>
            rw [List.mem_singleton.mp hk]
            exact ha.last rfl hm
    · unfold Node.nodesBelow
      rw [hg.children_eq hhead]
      exact h.sorted hn
  · exact List.Pairwise.nil

theorem Adds.bound {name : String} {x : Binding} (hn' : b'.tree.node? j = some n')
    (hx : n'.bindings.find? name = some x) :
    (Filling.ofBinding x).toList.Sublist n'.children := by
  rcases ha.cases hn' with ⟨n, hn, hg⟩ | ⟨-, kind, rfl⟩
  · rw [hg.bindings] at hx
    by_cases hhead : b.openNodes.head? = some j
    · rw [hg.children_head hhead]
      rw [if_pos hhead] at hx
      cases hlabel : b.label with
      | none =>
          simp only [Node.attach, hlabel] at hx
          exact (h.bound hn hx).trans (List.sublist_append_left _ _)
      | some l =>
          simp only [Node.attach, hlabel] at hx
          exact l.bound_bind c (fun hy => h.bound hn hy) hx
    · rw [hg.children_eq hhead]
      rw [if_neg hhead] at hx
      exact h.bound hn hx
  · cases hx

/-- Adding a child to the innermost open node keeps the links in agreement. -/
theorem Adds.linked (hopen : ∀ id ∈ b.openNodes, ∃ n, b.tree.node? id = some n) :
    b'.tree.Linked where
  parent := ha.parent h hopen
  child := ha.child h
  apart := ha.apart h
  nodup := ha.nodup h
  sorted := ha.sorted h
  bound := ha.bound h

end Adds

end Builder

/-! ### The open nodes -/

/-- Nodes that lie on one way down from the top, the lowest first: each is the last child of the
next one, and the last one has no parent. -/
def Tree.Spine (t : Tree) : List NodeId → Prop
  | [] => True
  | id :: rest =>
    (∃ n, t.node? id = some n ∧ n.parent = rest.head?) ∧
      (∀ p m, rest.head? = some p → t.node? p = some m →
        m.children.getLast? = some (.node id)) ∧
      t.Spine rest

namespace Tree

variable {t : Tree} {l : List NodeId} {id c : NodeId} {n : Node}

/-- The parent of a node on the way down is the next one on it, and has it for its last child. -/
theorem Spine.of_child (h : t.Spine l) (hc : c ∈ l) (hlinked : t.Linked)
    (hn : t.node? id = some n) (hmem : .node c ∈ n.children) :
    id ∈ l.tail ∧ n.children.getLast? = some (.node c) := by
  induction l with
  | nil => cases hc
  | cons i rest ih =>
      obtain ⟨⟨k, hk, hparent⟩, hlast, hrest⟩ := h
      rcases List.mem_cons.mp hc with rfl | hc
      · obtain ⟨m, hm, hid⟩ := hlinked.child hn hmem
        have hhead : rest.head? = some id := by
          rw [← hparent, ← hid, Option.some.inj (hk.symm.trans hm)]
        exact ⟨List.mem_of_mem_head? hhead, hlast id n hhead hn⟩
      · obtain ⟨htail, hlast⟩ := ih hrest hc
        exact ⟨List.mem_of_mem_tail htail, hlast⟩

/-- Every node on the way down but the lowest has its last child on it. -/
theorem Spine.exists_child (h : t.Spine l) (hid : id ∈ l.tail) (hn : t.node? id = some n) :
    ∃ c ∈ l, n.children.getLast? = some (.node c) := by
  induction l with
  | nil => cases hid
  | cons i rest ih =>
      obtain ⟨-, hlast, hrest⟩ := h
      cases rest with
      | nil => cases hid
      | cons p rest =>
          rcases List.mem_cons.mp hid with rfl | hid
          · exact ⟨i, List.mem_cons_self, hlast id n rfl hn⟩
          · obtain ⟨c, hc, hlast⟩ := ih hrest hid
            exact ⟨c, List.mem_cons_of_mem _ hc, hlast⟩

end Tree

namespace Builder

variable {b b' : Builder} {c : Child} {l : List NodeId} {kind : String} {type : Int}
  {text : String}

/-- Only the lowest node may get a child. -/
theorem Adds.spine (ha : Adds b b' c) (h : b.tree.Spine l)
    (hl : ∀ j ∈ l.tail, b.openNodes.head? ≠ some j) : b'.tree.Spine l := by
  induction l with
  | nil => trivial
  | cons i rest ih =>
      obtain ⟨⟨n, hn, hparent⟩, hlast, hrest⟩ := h
      obtain ⟨n', hn', hg⟩ := ha.kept hn
      refine ⟨⟨n', hn', hg.parent.trans hparent⟩, ?_, ?_⟩
      · intro p m' hp hm'
        have hp' := hl p (List.mem_of_mem_head? hp)
        rcases ha.cases hm' with ⟨m, hm, hgm⟩ | ⟨rfl, kind, rfl⟩
        · rw [hgm.children_eq hp']
          exact hlast p m hp hm
        · cases rest with
          | nil => cases hp
          | cons q rest =>
              obtain ⟨⟨m, hm, -⟩, -, -⟩ := hrest
              cases hp
              exact absurd (ha.last rfl hm) (Nat.lt_irrefl _)
      · exact ih hrest fun j hj => hl j (List.mem_of_mem_tail hj)

/-- What holds of a builder: its links agree, and the open nodes lie on one way down. -/
structure Linked (b : Builder) : Prop where
  ordered : b.Ordered
  tree : b.tree.Linked
  /-- Nodes further in have higher numbers. -/
  falling : b.openNodes.Pairwise (·.index > ·.index)
  spine : b.tree.Spine b.openNodes

theorem linked_initial : Builder.initial.Linked where
  ordered := ordered_initial
  tree := by constructor <;> intros <;> simp_all [initial, Tree.empty, Tree.node?]
  falling := .nil
  spine := trivial

namespace Linked

variable (h : b.Linked)

include h

theorem exists_node {id : NodeId} (hid : id ∈ b.openNodes) : ∃ n, b.tree.node? id = some n :=
  Tree.node?_of_lt (h.ordered.openNodes id hid)

/-- The innermost open node is none of the others. -/
theorem head?_ne {j : NodeId} (hj : j ∈ b.openNodes.tail) : b.openNodes.head? ≠ some j := by
  have hfalling := h.falling
  cases hopen : b.openNodes with
  | nil => simp
  | cons i rest =>
      rw [hopen] at hj hfalling
      intro hij
      cases hij
      exact absurd ((List.pairwise_cons.mp hfalling).1 j hj) (Nat.lt_irrefl _)

/-- Only the open nodes further out have children that are open. -/
theorem closed_children {id : NodeId} {n : Node} (hid : id ∉ b.openNodes.tail)
    (hn : b.tree.node? id = some n) {d : NodeId} (hd : .node d ∈ n.children) :
    d ∉ b.openNodes := fun hopen => hid (h.spine.of_child hopen h.tree hn hd).1

/-- Of the children of an open node further out just the last is open. -/
theorem exists_open_child {id : NodeId} {n : Node} (hid : id ∈ b.openNodes.tail)
    (hn : b.tree.node? id = some n) :
    ∃ cs c, n.children = cs ++ [.node c] ∧ c ∈ b.openNodes ∧
      ∀ d, .node d ∈ cs → d ∉ b.openNodes := by
  obtain ⟨c, hc, hlast⟩ := h.spine.exists_child hid hn
  obtain ⟨cs, hcs⟩ := List.getLast?_eq_some_iff.mp hlast
  refine ⟨cs, c, hcs, hc, ?_⟩
  intro d hd hopen
  have hmem : .node d ∈ n.children := hcs ▸ List.mem_append_left _ hd
  have hnodup := h.tree.nodup hn
  have hlast' := (h.spine.of_child hopen h.tree hn hmem).2
  rw [hlast'] at hlast
  cases hlast
  rw [hcs] at hnodup
  exact (List.nodup_append.mp hnodup).2.2 _ hd _ (List.mem_singleton_self _) rfl

omit h in
theorem mem_openNodes_iff {id : NodeId} :
    id ∈ b.openNodes ↔ b.openNodes.head? = some id ∨ id ∈ b.openNodes.tail := by
  cases b.openNodes with
  | nil => simp
  | cons i rest => simp [eq_comm]

theorem start (kind : String) : (b.start kind).Linked := by
  have ha := h.ordered.adds_start kind
  refine ⟨h.ordered.start kind, ha.linked h.tree fun _ => h.exists_node, ?_, ?_⟩
  · rw [openNodes_start]
    exact List.pairwise_cons.mpr ⟨h.ordered.openNodes, h.falling⟩
  · rw [openNodes_start]
    refine ⟨?_, ?_, ha.spine h.spine fun j => h.head?_ne⟩
    · obtain ⟨kind, hnew⟩ := ha.new rfl
      exact ⟨_, hnew, rfl⟩
    · intro p m' hp hm'
      obtain ⟨m, hm⟩ := h.exists_node (List.mem_of_mem_head? hp)
      rcases ha.cases hm' with ⟨m, -, hg⟩ | ⟨hnew, -⟩
      · rw [hg.children_head hp]
        simp
      · exact absurd (ha.last hnew hm) (Nat.lt_irrefl _)

theorem token (type : Int) (text : String) : (b.token type text).Linked := by
  have ha := h.ordered.adds_token type text
  refine ⟨h.ordered.token type text, ha.linked h.tree fun _ => h.exists_node, h.falling, ?_⟩
  exact ha.spine h.spine fun j => h.head?_ne

theorem finish : (b.feed .finish).Linked := by
  have hordered := h.ordered.feed .finish
  have hfalling := h.falling
  have hspine := h.spine
  cases hopen : b.openNodes with
  | nil =>
      rw [feed_finish_nil hopen]
      exact h
  | cons id rest =>
      rw [feed_finish_cons hopen] at hordered ⊢
      rw [hopen] at hfalling hspine
      exact ⟨hordered, h.tree, (List.pairwise_cons.mp hfalling).2, hspine.2.2⟩

/-- Every event keeps the links in agreement. -/
theorem feed (e : Event) : (b.feed e).Linked := by
  cases e with
  | start kind => exact h.start kind
  | finish => exact h.finish
  | label l => exact ⟨h.ordered.feed (.label l), h.tree, h.falling, h.spine⟩
  | token type text => exact h.token type text
  | hidden text => exact ⟨h.ordered.feed (.hidden text), h.tree, h.falling, h.spine⟩

end Linked

theorem linked_fed (events : List Event) : (fed events).Linked :=
  fed_induction (P := fun _ b => b.Linked) linked_initial (fun _ e h => h.feed e) events

end Builder

end TreeSchema
