/-
Built trees lead forward.

In a tree that was built from events every child is there, and a node comes before the nodes
below it, because a node is numbered when it begins and only open nodes get children.  So
going down in such a tree always ends.  One event keeps this, an event that cannot be is
passed over, and a finished tree is what the builder holds at the end.
-/
import TreeSchema.Proofs.Outcome
import TreeSchema.Tree.Builder

namespace TreeSchema

namespace Tree

/-- A child can be found, and comes after the node `id` that has it. -/
def Leads (t : Tree) (id : NodeId) : Child → Prop
  | .node c => id.index < c.index ∧ c.index < t.nodes.size
  | .token c => c.index < t.tokens.size

/-- All numbers in a tree can be followed, and lead forward. -/
structure Ordered (t : Tree) : Prop where
  root : ∀ {id}, t.root = some id → id.index < t.nodes.size
  child : ∀ {id n c}, t.node? id = some n → c ∈ n.children → t.Leads id c

/-- The trees that the builder can finish, events that cannot be being passed over. -/
def Built (t : Tree) : Prop :=
  ∃ events : List Event, (events.foldl Builder.feed .initial).toTree = .ok t

/-! ### Changing a tree -/

variable {t t' : Tree} {id j : NodeId} {n : Node} {c : Child} {change : Node → Node}

theorem index_lt (h : t.node? id = some n) : id.index < t.nodes.size :=
  (Array.getElem?_eq_some_iff.mp h).1

theorem node?_of_lt (h : id.index < t.nodes.size) : ∃ n, t.node? id = some n :=
  ⟨_, Array.getElem?_eq_getElem h⟩

theorem node_eq_ok_iff : t.node id = .ok n ↔ t.node? id = some n := by
  unfold node
  cases t.node? id <;> simp

theorem kind_eq_ok (h : t.node? id = some n) : t.kind id = .ok n.kind := by
  rw [kind, node_eq_ok_iff.mpr h]
  rfl

theorem Leads.mono (h : t.Leads id c) (hn : t.nodes.size ≤ t'.nodes.size)
    (hx : t.tokens.size ≤ t'.tokens.size) : t'.Leads id c := by
  cases c with
  | node c => exact ⟨h.1, Nat.lt_of_lt_of_le h.2 hn⟩
  | token c => exact Nat.lt_of_lt_of_le h hx

/-- A tree that only grew is ordered if its new children are. -/
theorem Ordered.grow (h : t.Ordered) (hn : t.nodes.size ≤ t'.nodes.size)
    (hx : t.tokens.size ≤ t'.tokens.size)
    (hroot : ∀ {id}, t'.root = some id → id.index < t'.nodes.size)
    (hchild : ∀ {id n' c}, t'.node? id = some n' → c ∈ n'.children →
      (∃ n, t.node? id = some n ∧ c ∈ n.children) ∨ t'.Leads id c) : t'.Ordered where
  root := hroot
  child := by
    intro id n' c hn' hc
    rcases hchild hn' hc with ⟨n, hold, hc⟩ | hnew
    · exact (h.child hold hc).mono hn hx
    · exact hnew

@[simp] theorem size_nodes_modify : (t.modify id change).nodes.size = t.nodes.size :=
  Array.size_modify

@[simp] theorem tokens_modify : (t.modify id change).tokens = t.tokens := rfl

theorem node?_modify :
    (t.modify id change).node? j =
      if id.index = j.index then (t.node? j).map change else t.node? j := by
  unfold modify node?
  exact Array.getElem?_modify ..

theorem Ordered.modify (h : t.Ordered)
    (hchild : ∀ n, t.node? id = some n → ∀ c ∈ (change n).children, c ∈ n.children ∨ t.Leads id c) :
    (t.modify id change).Ordered := by
  refine h.grow (by simp) (by simp) (fun hr => by simpa using h.root hr) fun {j n' c} hn' hc => ?_
  rw [node?_modify] at hn'
  split at hn'
  · next hj =>
    obtain rfl : id = j := by cases id; cases j; exact congrArg NodeId.mk hj
    obtain ⟨n, hn, rfl⟩ := Option.map_eq_some_iff.mp hn'
    rcases hchild n hn c hc with hold | hnew
    · exact .inl ⟨n, hn, hold⟩
    · exact .inr (hnew.mono (by simp) (by simp))
  · exact .inl ⟨n', hn', hc⟩

/-- A new node may become the root. -/
theorem Ordered.push (h : t.Ordered) {root : Option NodeId}
    (hn : n.children = []) (hroot : ∀ {id}, root = some id → id.index ≤ t.nodes.size) :
    Ordered { t with nodes := t.nodes.push n, root := root } := by
  refine h.grow (by simp) (Nat.le_refl _) (fun hr => by simpa using Nat.lt_succ_of_le (hroot hr))
    fun {id n' c} hn' hc => ?_
  have hpush : (t.nodes.push n)[id.index]? = some n' := hn'
  rw [Array.getElem?_push] at hpush
  split at hpush
  · cases hpush
    simp [hn] at hc
  · exact .inl ⟨n', hpush, hc⟩

/-- Marking the tokens of nodes leaves their children alone. -/
theorem Ordered.modifyAll (change : Node → Node) (hkeep : ∀ n, (change n).children = n.children)
    (ids : List NodeId) :
    ∀ {t : Tree}, t.Ordered → (t.modifyAll ids change).Ordered ∧
      (t.modifyAll ids change).nodes.size = t.nodes.size ∧
      (t.modifyAll ids change).tokens = t.tokens := by
  induction ids with
  | nil =>
      intro t h
      exact ⟨h, rfl, rfl⟩
  | cons id ids ih =>
      intro t h
      have hone : (t.modify id change).Ordered := h.modify fun n _ c hc => .inl (hkeep n ▸ hc)
      obtain ⟨hordered, hsize, htokens⟩ := ih hone
      exact ⟨hordered, hsize.trans size_nodes_modify, htokens⟩

end Tree

namespace Builder

variable {b b' : Builder} {c : Child} {kind : String} {type : Int} {text : String}

/-- What holds of a builder: its tree is ordered, and the open nodes are in it. -/
structure Ordered (b : Builder) : Prop where
  tree : b.tree.Ordered
  openNodes : ∀ id ∈ b.openNodes, id.index < b.tree.nodes.size

theorem ordered_initial : Builder.initial.Ordered where
  tree := by
    constructor
    · intro id h
      cases h
    · intro id n c h
      exact absurd (Tree.index_lt h) (Nat.not_lt_zero _)
  openNodes := by simp [initial]

/-! ### Events -/

@[simp] theorem size_attach : (b.attach c).tree.nodes.size = b.tree.nodes.size := by
  unfold Builder.attach
  cases b.openNodes with
  | nil => rfl
  | cons id rest => simp

/-- A child may be added that the innermost open node leads to. -/
theorem Ordered.attach (h : b.Ordered) (hc : ∀ id ∈ b.openNodes, b.tree.Leads id c) :
    (b.attach c).Ordered := by
  unfold Builder.attach
  cases hopen : b.openNodes with
  | nil => exact ⟨h.tree, by simp⟩
  | cons id rest =>
      have hid : b.tree.Leads id c := hc id (by simp [hopen])
      constructor
      · refine h.tree.modify fun n _ d hd => ?_
        rcases List.mem_append.mp hd with hold | hnew
        · exact .inl hold
        · rw [List.mem_singleton] at hnew
          exact .inr (hnew ▸ hid)
      · intro j hj
        have := h.openNodes j (hopen ▸ hj)
        simpa using this

/-- The node that begins may be noted as the root, and nothing else changes first. -/
theorem exists_noted (b : Builder) (kind : String) :
    ∃ root,
      (if b.openNodes.isEmpty then b.noteTop kind else b).tree = { b.tree with root := root } ∧
      (root = b.tree.root ∨ root = some b.nextNode) ∧
      (if b.openNodes.isEmpty then b.noteTop kind else b).openNodes = b.openNodes := by
  split
  · unfold noteTop
    split
    · exact ⟨some b.nextNode, rfl, .inr rfl, rfl⟩
    · exact ⟨b.tree.root, rfl, .inl rfl, rfl⟩
  · exact ⟨b.tree.root, rfl, .inl rfl, rfl⟩

theorem Ordered.start (h : b.Ordered) (kind : String) : (b.start kind).Ordered := by
  obtain ⟨root, htree, hroot, hopen⟩ := exists_noted b kind
  unfold Builder.start
  generalize (if b.openNodes.isEmpty then b.noteTop kind else b) = b' at htree hopen ⊢
  let n := Node.opened kind b'.openNodes.head?
  let pushed : Builder := { b' with tree := { b'.tree with nodes := b'.tree.nodes.push n } }
  have hsize : pushed.tree.nodes.size = b.tree.nodes.size + 1 := by simp [pushed, htree]
  have hbefore : ∀ id ∈ pushed.openNodes, id.index < b.tree.nodes.size := fun id hid =>
    h.openNodes id (hopen ▸ hid)
  have hpushed : pushed.Ordered := by
    constructor
    · show Tree.Ordered { b'.tree with nodes := b'.tree.nodes.push _ }
      rw [htree]
      refine h.tree.push rfl fun {id} hid => ?_
      rcases hroot with rfl | rfl
      · exact Nat.le_of_lt (h.tree.root hid)
      · rw [← Option.some.inj hid]
        exact Nat.le_refl _
    · intro id hid
      have := hbefore id hid
      omega
  have hattached := hpushed.attach (c := .node b.nextNode) fun id hid =>
    ⟨hbefore id hid, by rw [hsize]; exact Nat.lt_succ_self _⟩
  refine ⟨hattached.tree, fun id hid => ?_⟩
  rcases List.mem_cons.mp hid with rfl | hid
  · show b.tree.nodes.size < (pushed.attach (.node b.nextNode)).tree.nodes.size
    rw [size_attach, hsize]
    exact Nat.lt_succ_self _
  · exact hattached.openNodes id hid

theorem Ordered.finish (h : b.Ordered) (hf : b.finish = .ok b') : b'.Ordered := by
  unfold Builder.finish at hf
  split at hf
  · cases hf
  · next id rest hopen =>
    cases hf
    exact ⟨h.tree, fun j hj => h.openNodes j (by rw [hopen]; exact List.mem_cons_of_mem _ hj)⟩

theorem Ordered.token (h : b.Ordered) (type : Int) (text : String) :
    (b.token type text).Ordered := by
  let x : Token := ⟨type, text, b.cursor.line, b.cursor.column, b.cursor.offset,
    (b.cursor.advance text).offset, b.nextToken.index⟩
  have hread : Tree.Ordered { b.tree with tokens := b.tree.tokens.push x } :=
    h.tree.grow (Nat.le_refl _) (by simp) h.tree.root fun hn hc => .inl ⟨_, hn, hc⟩
  obtain ⟨hstarted, hsize, htokens⟩ :=
    Tree.Ordered.modifyAll (·.startAt b.nextToken) (fun _ => rfl) b.awaiting hread
  obtain ⟨hcovered, hsize', htokens'⟩ :=
    Tree.Ordered.modifyAll (·.cover b.nextToken) (fun _ => rfl) b.openNodes hstarted
  refine Ordered.attach ⟨hcovered, fun id hid => ?_⟩ fun id _ => ?_
  · rw [hsize', hsize]
    exact h.openNodes id hid
  · show b.tree.tokens.size < _
    rw [htokens', htokens, Array.size_push]
    exact Nat.lt_succ_self _

/-- Every event keeps the tree ordered, also one that cannot be. -/
theorem Ordered.feed (h : b.Ordered) (e : Event) : (b.feed e).Ordered := by
  cases e with
  | start kind => exact h.start kind
  | finish =>
      unfold Builder.feed
      split
      · next hstep => exact h.finish hstep
      · exact h
  | label l => exact ⟨h.tree, h.openNodes⟩
  | token type text => exact h.token type text
  | hidden text => exact ⟨h.tree, h.openNodes⟩

theorem ordered_foldl_feed (events : List Event) : (events.foldl feed initial).Ordered := by
  suffices hrun : ∀ (events : List Event) (b : Builder), b.Ordered →
      (events.foldl feed b).Ordered from hrun events initial ordered_initial
  intro events
  induction events with
  | nil =>
      intro b h
      exact h
  | cons e rest ih =>
      intro b h
      have hfed : (b.feed e).Ordered := h.feed e
      exact ih (b.feed e) hfed

end Builder

/-- In a built tree every number can be followed, and going down from a node ends. -/
theorem Tree.Built.ordered {t : Tree} (h : t.Built) : t.Ordered := by
  obtain ⟨events, h⟩ := h
  have hrun := Builder.ordered_foldl_feed events
  unfold Builder.toTree at h
  split at h
  · obtain ⟨kind, -, h⟩ := bind_eq_ok_iff.mp h
    cases h
  · split at h
    · cases h
    · cases h
      exact hrun.tree

end TreeSchema
