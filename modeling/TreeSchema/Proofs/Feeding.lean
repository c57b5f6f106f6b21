/-
What one event does to a builder.

Only two events change the nodes of a tree, and both do it in the same way: the innermost open
node gets one more child, which is the node that begins or the token that is read.  Everything
that is said of built trees comes from what is said here of these two, and from the fact that
an event that ends a node leaves the tree alone.  `Adds` is what they have in common; what a
token does besides, to the nodes that it starts and extends, is `receive`.
-/
import Mathlib.Data.List.Induction
import TreeSchema.Proofs.Ordered

namespace TreeSchema

theorem NodeId.ext_iff {i j : NodeId} : i = j ↔ i.index = j.index := by
  cases i; cases j; simp

namespace Tree

variable {t : Tree} {id j : NodeId} {n : Node} {change : Node → Node}

theorem node?_push {root : Option NodeId} :
    Tree.node? { t with nodes := t.nodes.push n, root := root } j =
      if j.index = t.nodes.size then some n else t.node? j := by
  unfold node?
  exact Array.getElem?_push

theorem node?_eq_none (h : t.nodes.size ≤ id.index) : t.node? id = none :=
  Array.getElem?_eq_none h

@[simp] theorem root_modifyAll (ids : List NodeId) (change : Node → Node) :
    ∀ t : Tree, (t.modifyAll ids change).root = t.root := by
  induction ids with
  | nil => intro t; rfl
  | cons id ids ih => intro t; exact ih (t.modify id change)

@[simp] theorem tokens_modifyAll (ids : List NodeId) (change : Node → Node) :
    ∀ t : Tree, (t.modifyAll ids change).tokens = t.tokens := by
  induction ids with
  | nil => intro t; rfl
  | cons id ids ih => intro t; exact ih (t.modify id change)

@[simp] theorem size_nodes_modifyAll (ids : List NodeId) (change : Node → Node) :
    ∀ t : Tree, (t.modifyAll ids change).nodes.size = t.nodes.size := by
  induction ids with
  | nil => intro t; rfl
  | cons id ids ih => intro t; exact (ih (t.modify id change)).trans size_nodes_modify

/-- A change that makes no difference when it is made again is made to each node once. -/
theorem node?_modifyAll (change : Node → Node) (hagain : ∀ n, change (change n) = change n)
    (ids : List NodeId) : ∀ t : Tree, (t.modifyAll ids change).node? j =
      (t.node? j).map fun n => if j ∈ ids then change n else n := by
  induction ids with
  | nil =>
      intro t
      show t.node? j = _
      simp
  | cons id ids ih =>
      intro t
      show ((t.modify id change).modifyAll ids change).node? j = _
      rw [ih, node?_modify]
      by_cases hj : id = j
      · subst hj
        by_cases hids : id ∈ ids
        · simp [hids, Function.comp_def, hagain]
        · simp [hids, Function.comp_def]
      · have hne : ¬ id.index = j.index := fun h => hj (NodeId.ext_iff.mpr h)
        have hmem : (j ∈ id :: ids) ↔ j ∈ ids := by simp [Ne.symm hj]
        simp [hne, hmem]

end Tree

namespace Builder

variable {b b' : Builder} {c : Child} {id j : NodeId} {rest : List NodeId} {kind : String}
  {type : Int} {text : String} {n : Node}

/-- The builder after a row of events, those that cannot be being passed over. -/
def fed (events : List Event) : Builder := events.foldl feed initial

theorem fed_concat (events : List Event) (e : Event) :
    fed (events ++ [e]) = (fed events).feed e := by
  simp [fed]

/-- What holds at the beginning and is kept by each event holds after every row of events. -/
theorem fed_induction {P : List Event → Builder → Prop} (hinit : P [] initial)
    (hfeed : ∀ events e, P events (fed events) → P (events ++ [e]) ((fed events).feed e))
    (events : List Event) : P events (fed events) := by
  induction events using List.reverseRecOn with
  | nil => exact hinit
  | append_singleton events e ih =>
      rw [fed_concat]
      exact hfeed events e ih

/-! ### Ending a node -/

theorem feed_finish_nil (h : b.openNodes = []) : b.feed .finish = b := by
  simp [feed, step, finish, h]

/-- Ending a node leaves the tree alone; a node that has no token waits for one. -/
theorem feed_finish_cons (h : b.openNodes = id :: rest) :
    b.feed .finish =
      { b with
        openNodes := rest
        awaiting := if ((b.tree.node? id).bind Node.start).isNone then b.awaiting ++ [id]
          else b.awaiting } := by
  simp [feed, step, finish, h]

/-- A tree is finished when no node is open and no second one was begun at the top. -/
theorem toTree_eq_ok_iff {t : Tree} :
    b.toTree = .ok t ↔ b.openNodes = [] ∧ b.extraRoot = none ∧ b.tree = t := by
  unfold toTree
  cases b.openNodes with
  | nil => cases b.extraRoot <;> simp
  | cons id rest =>
      simp only [reduceCtorEq, false_and, iff_false]
      intro h
      obtain ⟨kind, -, h⟩ := bind_eq_ok_iff.mp h
      cases h

/-! ### Adding a child -/

@[simp] theorem openNodes_attach : (b.attach c).openNodes = b.openNodes := rfl

@[simp] theorem awaiting_attach : (b.attach c).awaiting = b.awaiting := rfl

@[simp] theorem cursor_attach : (b.attach c).cursor = b.cursor := rfl

@[simp] theorem extraRoot_attach : (b.attach c).extraRoot = b.extraRoot := rfl

@[simp] theorem tokens_attach : (b.attach c).tree.tokens = b.tree.tokens := by
  unfold attach
  cases b.openNodes <;> rfl

@[simp] theorem root_attach : (b.attach c).tree.root = b.tree.root := by
  unfold attach
  cases b.openNodes <;> rfl

theorem node?_attach :
    (b.attach c).tree.node? j = (b.tree.node? j).map fun n =>
      if b.openNodes.head? = some j then n.attach c b.label else n := by
  unfold attach
  cases hopen : b.openNodes with
  | nil => simp
  | cons id rest =>
      show (b.tree.modify id _).node? j = _
      rw [Tree.node?_modify]
      by_cases hj : id = j
      · subst hj
        simp
      · have hne : ¬ id.index = j.index := fun h => hj (NodeId.ext_iff.mpr h)
        simp [hj, hne]

/-! ### Beginning a node -/

@[simp] theorem node?_nextNode : b.tree.node? b.nextNode = none :=
  Tree.node?_eq_none (Nat.le_refl _)

@[simp] theorem openNodes_noteTop : (b.noteTop kind).openNodes = b.openNodes := by
  unfold noteTop
  split <;> rfl

@[simp] theorem awaiting_noteTop : (b.noteTop kind).awaiting = b.awaiting := by
  unfold noteTop
  split <;> rfl

@[simp] theorem cursor_noteTop : (b.noteTop kind).cursor = b.cursor := by
  unfold noteTop
  split <;> rfl

@[simp] theorem label_noteTop : (b.noteTop kind).label = b.label := by
  unfold noteTop
  split <;> rfl

@[simp] theorem nodes_noteTop : (b.noteTop kind).tree.nodes = b.tree.nodes := by
  unfold noteTop
  split <;> rfl

@[simp] theorem tokens_noteTop : (b.noteTop kind).tree.tokens = b.tree.tokens := by
  unfold noteTop
  split <;> rfl

@[simp] theorem openNodes_start : (b.start kind).openNodes = b.nextNode :: b.openNodes := by
  simp only [start]
  split <;> simp

@[simp] theorem awaiting_start : (b.start kind).awaiting = b.awaiting := by
  simp only [start]
  split <;> simp

@[simp] theorem cursor_start : (b.start kind).cursor = b.cursor := by
  simp only [start]
  split <;> simp

@[simp] theorem tokens_start : (b.start kind).tree.tokens = b.tree.tokens := by
  simp only [start]
  split <;> simp

/-- The first node that begins at the top is the root. -/
theorem root_start :
    (b.start kind).tree.root =
      if b.openNodes = [] then b.tree.root.or (some b.nextNode) else b.tree.root := by
  cases hopen : b.openNodes <;> cases hroot : b.tree.root <;>
    simp [start, noteTop, hopen, hroot]

/-- Another node that begins at the top is noted. -/
theorem extraRoot_start :
    (b.start kind).extraRoot =
      if b.openNodes = [] ∧ b.tree.root ≠ none then b.extraRoot.or (some kind)
      else b.extraRoot := by
  cases hopen : b.openNodes <;> cases hroot : b.tree.root <;>
    simp [start, noteTop, hopen, hroot]

/-- The node that begins has nothing in it, and is the last child of the node around it. -/
theorem node?_start (hopen : ∀ id ∈ b.openNodes, id.index < b.tree.nodes.size) :
    (b.start kind).tree.node? j =
      if j = b.nextNode then some (Node.opened kind b.openNodes.head?)
      else (b.tree.node? j).map fun n =>
        if b.openNodes.head? = some j then n.attach (.node b.nextNode) b.label else n := by
  obtain ⟨root, htree, -, hnoted⟩ := exists_noted b kind
  have hlabel : (if b.openNodes.isEmpty then b.noteTop kind else b).label = b.label := by
    split <;> simp
  unfold start
  generalize (if b.openNodes.isEmpty then b.noteTop kind else b) = b' at htree hnoted hlabel ⊢
  have hindex : j.index = b.tree.nodes.size ↔ j = b.nextNode := NodeId.ext_iff.symm
  show (Builder.attach _ _).tree.node? j = _
  rw [node?_attach]
  simp only [htree, hnoted, hlabel, Tree.node?_push, hindex]
  by_cases hj : j = b.nextNode
  · have hhead : b.openNodes.head? ≠ some b.nextNode := by
      intro h
      exact absurd (hopen _ (List.mem_of_mem_head? h)) (Nat.lt_irrefl _)
    simp [hj, hhead]
  · simp [hj]

/-- A node is the one that begins, or the innermost open one and got it for a child, or the same
as before. -/
theorem of_node?_start (hopen : ∀ id ∈ b.openNodes, id.index < b.tree.nodes.size)
    (h : (b.start kind).tree.node? j = some n) :
    n = .opened kind b.openNodes.head? ∨
      ∃ m, b.tree.node? j = some m ∧
        n = if b.openNodes.head? = some j then m.attach (.node b.nextNode) b.label else m := by
  rw [node?_start hopen] at h
  by_cases hj : j = b.nextNode
  · rw [if_pos hj] at h
    exact .inl (Option.some.inj h).symm
  · rw [if_neg hj] at h
    obtain ⟨m, hm, rfl⟩ := Option.map_eq_some_iff.mp h
    exact .inr ⟨m, hm, rfl⟩

/-! ### Reading a token -/

/-- What a token does to the node `id`: it starts the node if that waits for it, extends the node
if that is open, and becomes a child of the innermost open one. -/
def receive (b : Builder) (id : NodeId) (n : Node) : Node :=
  let n := if id ∈ b.awaiting then n.startAt b.nextToken else n
  let n := if id ∈ b.openNodes then n.cover b.nextToken else n
  if b.openNodes.head? = some id then n.attach (.token b.nextToken) b.label else n

@[simp] theorem openNodes_token : (b.token type text).openNodes = b.openNodes := rfl

@[simp] theorem awaiting_token : (b.token type text).awaiting = [] := rfl

@[simp] theorem root_token : (b.token type text).tree.root = b.tree.root := by
  simp [token]

@[simp] theorem size_nodes_token :
    (b.token type text).tree.nodes.size = b.tree.nodes.size := by
  simp [token]

theorem tokens_token :
    (b.token type text).tree.tokens = b.tree.tokens.push
      ⟨type, text, b.cursor.line, b.cursor.column, b.cursor.offset,
        (b.cursor.advance text).offset, b.nextToken.index⟩ := by
  simp [token]

theorem token?_token (b : Builder) (type : Int) (text : String) (i : TokenId) :
    (b.token type text).tree.token? i = if i.index = b.tree.tokens.size then
      some ⟨type, text, b.cursor.line, b.cursor.column, b.cursor.offset,
        (b.cursor.advance text).offset, b.nextToken.index⟩
    else b.tree.token? i := by
  unfold Tree.token?
  rw [tokens_token, Array.getElem?_push]

theorem node?_token :
    (b.token type text).tree.node? j = (b.tree.node? j).map (b.receive j) := by
  unfold token
  rw [node?_attach]
  simp only [Tree.node?_modifyAll (·.startAt b.nextToken) (fun _ => rfl),
    Tree.node?_modifyAll (·.cover b.nextToken) (fun n => by
      cases hs : n.start <;> simp [Node.cover, hs])]
  show Option.map _ (Option.map _ (Option.map _ (b.tree.node? j))) = _
  simp only [Option.map_map]
  rfl

theorem parent_receive : (b.receive id n).parent = n.parent := by
  unfold receive
  simp only
  split <;> split <;> split <;> rfl

theorem kind_receive : (b.receive id n).kind = n.kind := by
  unfold receive
  simp only
  split <;> split <;> split <;> rfl

theorem children_receive :
    (b.receive id n).children =
      n.children ++ if b.openNodes.head? = some id then [.token b.nextToken] else [] := by
  unfold receive
  simp only
  split <;> split <;> split <;> simp [Node.attach, Node.cover, Node.startAt]

theorem bindings_receive :
    (b.receive id n).bindings =
      if b.openNodes.head? = some id then
        (n.attach (.token b.nextToken) b.label).bindings
      else n.bindings := by
  unfold receive
  simp only
  split <;> split <;> split <;> rfl

theorem stop_receive :
    (b.receive id n).stop = if id ∈ b.openNodes then some b.nextToken else n.stop := by
  unfold receive
  simp only
  split <;> split <;> split <;> rfl

theorem start_receive :
    (b.receive id n).start =
      if id ∈ b.awaiting then some b.nextToken
      else if id ∈ b.openNodes then n.start.or (some b.nextToken) else n.start := by
  unfold receive
  simp only
  split <;> split <;> split <;> simp_all [Node.attach, Node.cover, Node.startAt]

/-! ### What both have in common -/

/-- The node `j` before and after the innermost open node got the child `c` under the label that
was given. -/
structure Gains (b : Builder) (c : Child) (j : NodeId) (n n' : Node) : Prop where
  parent : n'.parent = n.parent
  children : n'.children = n.children ++ if b.openNodes.head? = some j then [c] else []
  bindings : n'.bindings =
    if b.openNodes.head? = some j then (n.attach c b.label).bindings else n.bindings

/-- From one builder to another the innermost open node got one more child.  If the child is a
node then it is new and has nothing in it. -/
structure Adds (b b' : Builder) (c : Child) : Prop where
  kept : ∀ {j n}, b.tree.node? j = some n → ∃ n', b'.tree.node? j = some n' ∧ b.Gains c j n n'
  cases : ∀ {j n'}, b'.tree.node? j = some n' →
    (∃ n, b.tree.node? j = some n ∧ b.Gains c j n n') ∨
      (c = .node j ∧ ∃ kind, n' = .opened kind b.openNodes.head?)
  new : ∀ {j}, c = .node j → ∃ kind, b'.tree.node? j = some (.opened kind b.openNodes.head?)
  /-- The child is not below any node yet. -/
  fresh : ∀ {j n}, b.tree.node? j = some n → c ∉ n.children
  /-- A new node comes after all others. -/
  last : ∀ {i j n}, c = .node j → b.tree.node? i = some n → i.index < j.index

theorem Ordered.adds_start (h : b.Ordered) (kind : String) :
    Adds b (b.start kind) (.node b.nextNode) := by
  have hgains : ∀ j n, b.Gains (.node b.nextNode) j n
      (if b.openNodes.head? = some j then n.attach (.node b.nextNode) b.label else n) := by
    intro j n
    by_cases hhead : b.openNodes.head? = some j
    · constructor <;> simp [hhead, Node.attach]
    · constructor <;> simp [hhead]
  have hlast : ∀ {i n}, b.tree.node? i = some n → i.index < b.nextNode.index := Tree.index_lt
  constructor
  · intro j n hn
    have hj : j ≠ b.nextNode := by
      rintro rfl
      exact absurd (hlast hn) (Nat.lt_irrefl _)
    rw [node?_start h.openNodes, if_neg hj, hn]
    exact ⟨_, rfl, hgains j n⟩
  · intro j n' hn'
    rw [node?_start h.openNodes] at hn'
    by_cases hj : j = b.nextNode
    · rw [if_pos hj] at hn'
      exact .inr ⟨congrArg Child.node hj.symm, kind, (Option.some.inj hn').symm⟩
    · rw [if_neg hj] at hn'
      obtain ⟨n, hn, rfl⟩ := Option.map_eq_some_iff.mp hn'
      exact .inl ⟨n, hn, hgains j n⟩
  · intro j hj
    cases hj
    exact ⟨kind, by simp [node?_start h.openNodes]⟩
  · intro j n hn hmem
    exact absurd (h.tree.child hn hmem).2 (Nat.lt_irrefl _)
  · intro i j n hj hn
    cases hj
    exact hlast hn

theorem Ordered.adds_token (h : b.Ordered) (type : Int) (text : String) :
    Adds b (b.token type text) (.token b.nextToken) := by
  have hgains : ∀ j n, b.Gains (.token b.nextToken) j n (b.receive j n) := fun j n =>
    ⟨parent_receive, children_receive, bindings_receive⟩
  constructor
  · intro j n hn
    rw [node?_token, hn]
    exact ⟨_, rfl, hgains j n⟩
  · intro j n' hn'
    rw [node?_token] at hn'
    obtain ⟨n, hn, rfl⟩ := Option.map_eq_some_iff.mp hn'
    exact .inl ⟨n, hn, hgains j n⟩
  · intro j hj
    cases hj
  · intro j n hn hmem
    exact absurd (h.tree.child hn hmem) (Nat.lt_irrefl b.tree.tokens.size)
  · intro i j n hj
    cases hj

end Builder

end TreeSchema
