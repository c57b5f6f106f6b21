/-
What is built is what was replayed.

A front end that walks a tree of its own reports it in pre-order: what is in a node comes between
its beginning and its end, and the label of a child right before it.  The tree that is built from
such a report is the one that was walked, without the hidden text, and every label is bound as if
the labelled children had been bound one after the other.

Replaying the contents of a node leaves a builder in which nothing was changed but the node
itself, which took some children; `Replayed` says so of any builder with an open node, so that it
holds again for the nodes inside.  The nodes that came up on the way are shown to be right in
every later tree that keeps them, since what is replayed next still works on the same tree.
-/
import TreeSchema.Proofs.Feeding

namespace TreeSchema

/-! ### Abstract trees -/

/-- A part of the contents of a node. -/
inductive Piece where
  | hidden (text : String)
  | token (label : Option Label) (type : Int) (text : String)
  | node (label : Option Label) (kind : String) (pieces : List Piece)

/-- What is left of a tree without hidden text and labels. -/
inductive Shape where
  | token (type : Int) (text : String)
  | node (kind : String) (children : List Shape)

namespace Piece

mutual

/-- The events that report a part: the label of a child comes right before it. -/
def events : Piece → List Event
  | hidden text => [.hidden text]
  | token label type text => label.toList.map .label ++ [.token type text]
  | node label kind pieces =>
    label.toList.map .label ++ .start kind :: (eventsOf pieces ++ [.finish])

/-- The events that report the contents of a node. -/
def eventsOf : List Piece → List Event
  | [] => []
  | p :: ps => p.events ++ eventsOf ps

end

mutual

/-- What is left of a part: nothing if it is hidden. -/
def shape? : Piece → Option Shape
  | hidden _ => none
  | token _ type text => some (.token type text)
  | node _ kind pieces => some (.node kind (shapesOf pieces))

def shapesOf : List Piece → List Shape
  | [] => []
  | p :: ps => p.shape?.toList ++ shapesOf ps

end

end Piece

/-- A child with the label it was given. -/
abbrev Labelled := Option Label × Child

/-- What the names stand for after one more child: a single label sets its name to the child, and
a list label adds it to the list, of which a child set singly becomes the first entry. -/
def bindNext (bound : String → Option Binding) : Labelled → String → Option Binding
  | (none, _) => bound
  | (some (.assign name), c) => Function.update bound name (some (.one c))
  | (some (.append name), c) =>
    Function.update bound name <| some <| match bound name with
      | none => .many [c]
      | some (.one first) => .many [first, c]
      | some (.many cs) => .many (cs ++ [c])

/-- What the names stand for once all children of a node are there. -/
def boundBy (children : List Labelled) : String → Option Binding :=
  children.foldl bindNext fun _ => none

namespace Tree

/-- Reads what is below a child, at most `steps` nodes deep. -/
def shape? (t : Tree) : Nat → Child → Option Shape
  | _, .token id => (t.token? id).map fun x => .token x.type x.text
  | 0, .node _ => none
  | steps + 1, .node id => do
    let n ← t.node? id
    return .node n.kind (← n.children.mapM (t.shape? steps))

mutual

/-- A part of the contents of a node gave the node these children: none if it is hidden, and
otherwise one, which is like it all the way down. -/
def Shows (t : Tree) : Piece → List Labelled → Prop
  | .hidden _, children => children = []
  | .token label type text, children =>
    ∃ id x, children = [(label, .token id)] ∧ t.token? id = some x ∧ x.type = type ∧ x.text = text
  | .node label kind pieces, children =>
    ∃ id n inner, children = [(label, .node id)] ∧ t.node? id = some n ∧ n.kind = kind ∧
      n.children = inner.map Prod.snd ∧ n.bindings.find? = boundBy inner ∧ t.ShowsAll pieces inner

def ShowsAll (t : Tree) : List Piece → List Labelled → Prop
  | [], children => children = []
  | p :: ps, children => ∃ here rest, children = here ++ rest ∧ t.Shows p here ∧ t.ShowsAll ps rest

end

theorem showsAll_append {t : Tree} {ps qs : List Piece} {cs ds : List Labelled}
    (h : t.ShowsAll ps cs) (h' : t.ShowsAll qs ds) : t.ShowsAll (ps ++ qs) (cs ++ ds) := by
  induction ps generalizing cs with
  | nil =>
      obtain rfl : cs = [] := h
      exact h'
  | cons p ps ih =>
      obtain ⟨here, rest, rfl, hhere, hrest⟩ := h
      exact ⟨here, rest ++ ds, List.append_assoc .., hhere, ih hrest⟩

theorem showsAll_singleton {t : Tree} {p : Piece} {cs : List Labelled} (h : t.Shows p cs) :
    t.ShowsAll [p] cs :=
  ⟨cs, [], (List.append_nil cs).symm, h, rfl⟩

/-! ### Reading what is shown -/

mutual

theorem shape?_of_shows {t : Tree} (ht : t.Ordered) (steps : Nat) :
    ∀ {p : Piece} {children : List Labelled}, t.Shows p children →
      (∀ id, .node id ∈ children.map Prod.snd → t.nodes.size ≤ id.index + steps) →
      (children.map Prod.snd).mapM (t.shape? steps) = some p.shape?.toList
  | .hidden _, children, h, _ => by
      obtain rfl : children = [] := h
      rfl
  | .token label type text, children, h, _ => by
      obtain ⟨id, x, rfl, hx, rfl, rfl⟩ := h
      have hread : t.shape? steps (.token id) = some (.token x.type x.text) := by
        unfold shape?
        rw [hx, Option.map_some]
      simp [hread, Piece.shape?]
  | .node label kind pieces, children, h, hsteps => by
      obtain ⟨id, n, inner, rfl, hn, rfl, hchildren, -, hinner⟩ := h
      have hbound : t.nodes.size ≤ id.index + steps := hsteps id (by simp)
      cases steps with
      | zero => exact absurd (index_lt hn) (Nat.not_lt.mpr hbound)
      | succ steps =>
          have hrest : n.children.mapM (t.shape? steps) = some (Piece.shapesOf pieces) := by
            rw [hchildren]
            refine shape?_of_showsAll ht steps hinner fun j hj => ?_
            have hlead : t.Leads id (.node j) := ht.child hn (hchildren ▸ hj)
            have hlt := hlead.1
            omega
          have hread : t.shape? (steps + 1) (.node id)
              = some (.node n.kind (Piece.shapesOf pieces)) := by
            rw [shape?, hn]
            show (n.children.mapM (t.shape? steps) >>= _) = _
            rw [hrest]
            rfl
          simp [hread, Piece.shape?]

theorem shape?_of_showsAll {t : Tree} (ht : t.Ordered) (steps : Nat) :
    ∀ {ps : List Piece} {children : List Labelled}, t.ShowsAll ps children →
      (∀ id, .node id ∈ children.map Prod.snd → t.nodes.size ≤ id.index + steps) →
      (children.map Prod.snd).mapM (t.shape? steps) = some (Piece.shapesOf ps)
  | [], children, h, _ => by
      obtain rfl : children = [] := h
      rfl
  | p :: ps, children, h, hsteps => by
      obtain ⟨here, rest, rfl, hhere, hrest⟩ := h
      rw [List.map_append] at hsteps ⊢
      have hfirst := shape?_of_shows ht steps hhere fun id hid =>
        hsteps id (List.mem_append_left _ hid)
      have hothers := shape?_of_showsAll ht steps hrest fun id hid =>
        hsteps id (List.mem_append_right _ hid)
      rw [List.mapM_append, hfirst, hothers]
      rfl

end

end Tree

/-! ### Nodes that take children -/

/-- Binding a child as its label says is the next step of binding. -/
theorem find?_bind (l : Label) (c : Child) (bindings : FinMap String Binding) :
    (l.bind c bindings).find? = bindNext bindings.find? (some l, c) := by
  funext name
  cases l with
  | assign other =>
      rw [Label.bind, FinMap.find?_insert, bindNext, Function.update_apply]
      exact if_congr eq_comm rfl rfl
  | append other =>
      rw [Label.bind, FinMap.find?_insert, bindNext, Function.update_apply]
      refine if_congr eq_comm ?_ rfl
      cases bindings.find? other with
      | none => rfl
      | some bound => cases bound <;> rfl

/-- A node before and after it took some children, one after the other. -/
structure Node.Takes (n n' : Node) (added : List Labelled) : Prop where
  kind : n'.kind = n.kind
  children : n'.children = n.children ++ added.map Prod.snd
  bindings : n'.bindings.find? = added.foldl bindNext n.bindings.find?

namespace Node.Takes

variable {n n' n'' : Node} {added later : List Labelled}

theorem refl (n : Node) : n.Takes n [] := ⟨rfl, (List.append_nil _).symm, rfl⟩

theorem trans (h : n.Takes n' added) (h' : n'.Takes n'' later) :
    n.Takes n'' (added ++ later) where
  kind := h'.kind.trans h.kind
  children := by rw [h'.children, h.children, List.map_append, List.append_assoc]
  bindings := by rw [h'.bindings, h.bindings, List.foldl_append]

theorem attach (n : Node) (c : Child) (label : Option Label) :
    n.Takes (n.attach c label) [(label, c)] where
  kind := rfl
  children := rfl
  bindings := by
    cases label with
    | none => rfl
    | some l => exact find?_bind l c n.bindings

end Node.Takes

/-- A later tree that keeps the nodes from a number on, and all tokens. -/
structure Tree.Keeps (t t' : Tree) (bound : Nat) : Prop where
  node : ∀ {j n}, bound ≤ j.index → t.node? j = some n → ∃ n', t'.node? j = some n' ∧ n.Takes n' []
  token : ∀ {i x}, t.token? i = some x → t'.token? i = some x

theorem Tree.Keeps.mono {t t' : Tree} {bound bound' : Nat} (h : t.Keeps t' bound)
    (hle : bound ≤ bound') : t.Keeps t' bound' where
  node hj := h.node (Nat.le_trans hle hj)
  token := h.token

/-! ### Replaying the contents of a node -/

namespace Builder

/-- From `b` to `b'` the innermost open node took children, and what was replayed shows in them. -/
structure Replayed (b b' : Builder) (ps : List Piece) (added : List Labelled) : Prop where
  openNodes : b'.openNodes = b.openNodes
  root : b'.tree.root = b.tree.root
  extraRoot : b'.extraRoot = b.extraRoot
  label : b'.label = none
  ordered : b'.Ordered
  size_le : b.tree.nodes.size ≤ b'.tree.nodes.size
  token : ∀ {i x}, b.tree.token? i = some x → b'.tree.token? i = some x
  node : ∀ {j n}, b.tree.node? j = some n → ∃ n', b'.tree.node? j = some n' ∧
    n.Takes n' (if b.openNodes.head? = some j then added else [])
  /-- However the tree is built on, as long as the new nodes stay. -/
  shown : ∀ {t}, b'.tree.Keeps t b.tree.nodes.size → t.ShowsAll ps added

namespace Replayed

variable {b b' b'' : Builder} {ps qs : List Piece} {added later : List Labelled}

theorem nil (h : b.Ordered) (hlabel : b.label = none) : Replayed b b [] [] where
  openNodes := rfl
  root := rfl
  extraRoot := rfl
  label := hlabel
  ordered := h
  size_le := Nat.le_refl _
  token h := h
  node h := ⟨_, h, by rw [ite_self]; exact .refl _⟩
  shown _ := rfl

/-- The nodes that came up first are not open when more is replayed, so they stay. -/
theorem keeps (hb : b.Ordered) (h : Replayed b b' ps added) (h' : Replayed b' b'' qs later)
    {t : Tree} (ht : b''.tree.Keeps t b.tree.nodes.size) : b'.tree.Keeps t b.tree.nodes.size where
  node := by
    intro j n hj hn
    obtain ⟨n', hn', htakes⟩ := h'.node hn
    have hclosed : b'.openNodes.head? ≠ some j := by
      intro hhead
      rw [h.openNodes] at hhead
      exact absurd (hb.openNodes j (List.mem_of_mem_head? hhead)) (Nat.not_lt.mpr hj)
    rw [if_neg hclosed] at htakes
    obtain ⟨n'', hn'', htakes'⟩ := ht.node hj hn'
    exact ⟨n'', hn'', htakes.trans htakes'⟩
  token hx := ht.token (h'.token hx)

theorem append (hb : b.Ordered) (h : Replayed b b' ps added) (h' : Replayed b' b'' qs later) :
    Replayed b b'' (ps ++ qs) (added ++ later) where
  openNodes := h'.openNodes.trans h.openNodes
  root := h'.root.trans h.root
  extraRoot := h'.extraRoot.trans h.extraRoot
  label := h'.label
  ordered := h'.ordered
  size_le := Nat.le_trans h.size_le h'.size_le
  token hx := h'.token (h.token hx)
  node := by
    intro j n hn
    obtain ⟨n', hn', htakes⟩ := h.node hn
    obtain ⟨n'', hn'', htakes'⟩ := h'.node hn'
    refine ⟨n'', hn'', ?_⟩
    rw [h.openNodes] at htakes'
    have hboth := htakes.trans htakes'
    split at hboth
    · next hhead => rwa [if_pos hhead]
    · next hhead => rwa [if_neg hhead]
  shown ht := Tree.showsAll_append (h.shown (h.keeps hb h' ht)) (h'.shown (ht.mono h.size_le))

end Replayed

/-! ### One part after the other -/

variable {b b' : Builder} {label : Option Label} {kind : String} {pieces : List Piece}
  {inner : List Labelled} {j : NodeId}

theorem run_append (b : Builder) (es es' : List Event) :
    b.run (es ++ es') = b.run es >>= fun b' => b'.run es' :=
  List.foldlM_append

theorem setLabel_none (hlabel : b.label = none) : { b with label := none } = b := by
  rw [← hlabel]

/-- A label is there for what comes right after it. -/
theorem run_label (hlabel : b.label = none) (label : Option Label) (es : List Event) :
    b.run (label.toList.map .label ++ es) = Builder.run { b with label := label } es := by
  cases label with
  | none => rw [setLabel_none hlabel, Option.toList_none, List.map_nil, List.nil_append]
  | some l => rfl

/-- After its contents a node is ended. -/
theorem exists_run_node {id : NodeId} {rest : List NodeId}
    (hrun : (b.start kind).run (Piece.eventsOf pieces) = .ok b')
    (hopen : b'.openNodes = id :: rest) :
    ∃ awaiting, b.run (.start kind :: (Piece.eventsOf pieces ++ [.finish]))
      = .ok { b' with openNodes := rest, awaiting := awaiting } := by
  obtain ⟨awaiting, hfinish⟩ : ∃ awaiting,
      b'.finish = .ok { b' with openNodes := rest, awaiting := awaiting } := by
    rw [finish, hopen]
    exact ⟨_, rfl⟩
  refine ⟨awaiting, ?_⟩
  show (b.start kind).run (Piece.eventsOf pieces ++ [.finish]) = _
  rw [run_append, hrun]
  show b'.finish >>= _ = _
  rw [hfinish]
  rfl

theorem node?_start_nextNode (hb : b.Ordered) (kind : String) :
    (b.start kind).tree.node? b.nextNode = some (.opened kind b.openNodes.head?) := by
  rw [node?_start hb.openNodes, if_pos rfl]

theorem Ordered.setLabel (h : b.Ordered) (label : Option Label) :
    Ordered { b with label := label } :=
  ⟨h.tree, h.openNodes⟩

theorem replayed_hidden (hb : b.Ordered) (hlabel : b.label = none) (text : String) :
    Replayed b (b.hidden text) [.hidden text] [] :=
  { Replayed.nil hb hlabel with
    ordered := ⟨hb.tree, hb.openNodes⟩
    shown := fun _ => Tree.showsAll_singleton rfl }

theorem takes_receive (b : Builder) (j : NodeId) (n : Node) :
    n.Takes (b.receive j n)
      (if b.openNodes.head? = some j then [(b.label, .token b.nextToken)] else []) where
  kind := kind_receive
  children := by
    rw [children_receive]
    split <;> rfl
  bindings := by
    rw [bindings_receive]
    split
    · exact (Node.Takes.attach n (.token b.nextToken) b.label).bindings
    · rfl

theorem replayed_token (hb : b.Ordered) (label : Option Label) (type : Int) (text : String) :
    Replayed b (Builder.token { b with label := label } type text) [.token label type text]
      [(label, .token b.nextToken)] where
  openNodes := rfl
  root := root_token
  extraRoot := rfl
  label := rfl
  ordered := (hb.setLabel label).token type text
  size_le := Nat.le_of_eq (size_nodes_token (b := { b with label := label })).symm
  token := by
    intro i x hx
    have hlt : i.index < b.tree.tokens.size := (Array.getElem?_eq_some_iff.mp hx).1
    rw [token?_token]
    exact (if_neg (Nat.ne_of_lt hlt)).trans hx
  node := by
    intro j n hn
    refine ⟨receive { b with label := label } j n, ?_, takes_receive { b with label := label } j n⟩
    rw [node?_token]
    exact congrArg (Option.map _) hn
  shown := by
    intro t ht
    have hread := token?_token { b with label := label } type text b.nextToken
    exact Tree.showsAll_singleton
      ⟨b.nextToken, _, rfl, ht.token (hread.trans (if_pos rfl)), rfl, rfl⟩

/-- Once the contents of a node were replayed, the node shows what it should. -/
theorem shows_node (hb : b.Ordered) (h : Replayed (b.start kind) b' pieces inner) {t : Tree}
    (ht : b'.tree.Keeps t b.tree.nodes.size) :
    t.Shows (.node b.label kind pieces) [(b.label, .node b.nextNode)] := by
  have hn := node?_start_nextNode hb kind
  obtain ⟨n, hn', htakes⟩ := h.node hn
  rw [if_pos (by rw [openNodes_start, List.head?_cons])] at htakes
  obtain ⟨n', hn'', hkept⟩ := ht.node (Nat.le_refl _) hn'
  have hboth := htakes.trans hkept
  rw [List.append_nil] at hboth
  refine ⟨b.nextNode, n', inner, rfl, hn'', hboth.kind, hboth.children, hboth.bindings, ?_⟩
  exact h.shown (ht.mono (Nat.le_of_lt (Tree.index_lt hn)))

theorem takes_start (hb : b.Ordered) (kind : String) {n : Node} (hn : b.tree.node? j = some n) :
    ∃ n', (b.start kind).tree.node? j = some n' ∧
      n.Takes n' (if b.openNodes.head? = some j then [(b.label, .node b.nextNode)] else []) := by
  have hold : j ≠ b.nextNode := by
    rintro rfl
    exact absurd (Tree.index_lt hn) (Nat.lt_irrefl _)
  rw [node?_start hb.openNodes, if_neg hold, hn]
  refine ⟨_, rfl, ?_⟩
  split
  · exact .attach n _ _
  · exact .refl n

/-- A node with its contents is replayed, from its beginning to its end. -/
theorem replayed_node (hb : b.Ordered) (hopen : b.openNodes ≠ []) (awaiting : List NodeId)
    (h : Replayed (b.start kind) b' pieces inner) :
    Replayed { b with label := none }
      { b' with openNodes := b.openNodes, awaiting := awaiting }
      [.node b.label kind pieces] [(b.label, .node b.nextNode)] where
  openNodes := rfl
  root := by
    rw [h.root, root_start, if_neg hopen]
  extraRoot := by
    rw [h.extraRoot, extraRoot_start, if_neg fun hboth => hopen hboth.1]
  label := h.label
  ordered := ⟨h.ordered.tree, fun id hid => h.ordered.openNodes id (by
    rw [h.openNodes, openNodes_start]
    exact List.mem_cons_of_mem _ hid)⟩
  size_le := Nat.le_trans (Nat.le_of_lt (Tree.index_lt (node?_start_nextNode hb kind))) h.size_le
  token := by
    intro i x hx
    refine h.token ?_
    unfold Tree.token?
    rw [tokens_start]
    exact hx
  node := by
    intro j n hn
    obtain ⟨n', hn', htakes⟩ := takes_start hb kind hn
    obtain ⟨n'', hn'', htakes'⟩ := h.node hn'
    have hinner : (b.start kind).openNodes.head? ≠ some j := by
      rw [openNodes_start, List.head?_cons]
      rintro hj
      exact absurd (Tree.index_lt hn) (Option.some.inj hj ▸ Nat.lt_irrefl _)
    rw [if_neg hinner] at htakes'
    have hboth := htakes.trans htakes'
    rw [List.append_nil] at hboth
    exact ⟨n'', hn'', hboth⟩
  shown ht := Tree.showsAll_singleton (shows_node hb h ht)

mutual

theorem exists_replayed :
    ∀ (p : Piece) {b : Builder}, b.Ordered → b.openNodes ≠ [] → b.label = none →
      ∃ b' added, b.run p.events = .ok b' ∧ Replayed b b' [p] added
  | .hidden text, b, hb, _, hlabel => ⟨b.hidden text, [], rfl, replayed_hidden hb hlabel text⟩
  | .token label type text, b, hb, _, hlabel => by
      refine ⟨_, _, ?_, replayed_token hb label type text⟩
      rw [Piece.events, run_label hlabel]
      rfl
  | .node label kind pieces, b, hb, hopen, hlabel => by
      let b₀ : Builder := { b with label := label }
      have hb₀ : b₀.Ordered := hb.setLabel label
      obtain ⟨b₁, inner, hrun, h⟩ := exists_replayedAll pieces (hb₀.start kind)
        (by rw [openNodes_start]; exact List.cons_ne_nil _ _) rfl
      obtain ⟨awaiting, hend⟩ := exists_run_node hrun (h.openNodes.trans openNodes_start)
      have hnode := replayed_node hb₀ hopen awaiting h
      rw [show { b₀ with label := none } = b from setLabel_none hlabel] at hnode
      refine ⟨_, _, ?_, hnode⟩
      rw [Piece.events, run_label hlabel]
      exact hend

theorem exists_replayedAll :
    ∀ (ps : List Piece) {b : Builder}, b.Ordered → b.openNodes ≠ [] → b.label = none →
      ∃ b' added, b.run (Piece.eventsOf ps) = .ok b' ∧ Replayed b b' ps added
  | [], b, hb, _, hlabel => ⟨b, [], rfl, .nil hb hlabel⟩
  | p :: ps, b, hb, hopen, hlabel => by
      obtain ⟨b₁, here, hrun₁, h₁⟩ := exists_replayed p hb hopen hlabel
      obtain ⟨b₂, rest, hrun₂, h₂⟩ :=
        exists_replayedAll ps h₁.ordered (h₁.openNodes ▸ hopen) h₁.label
      refine ⟨b₂, here ++ rest, ?_, h₁.append hb h₂⟩
      rw [Piece.eventsOf, run_append, hrun₁]
      exact hrun₂

end

end Builder

/--
**What is built is what was replayed.**  Report a tree in pre-order, from the beginning of its
root to its end, with each label right before its child.  Then building succeeds, and reading the
tree from its root gives back what was reported without the hidden text: the kinds, the children
in their order, the types and texts of the tokens.  At every node the names are bound to what
binding the labelled children one after the other makes of them.
-/
theorem Tree.built_replay (kind : String) (pieces : List Piece) :
    ∃ t root, Tree.ofEvents (Piece.node none kind pieces).events = .ok t ∧ t.root = some root ∧
      t.shape? t.nodes.size (.node root) = some (.node kind (Piece.shapesOf pieces)) ∧
      t.Shows (.node none kind pieces) [(none, .node root)] := by
  have hinitial := Builder.ordered_initial
  obtain ⟨b, inner, hrun, h⟩ := Builder.exists_replayedAll pieces (hinitial.start kind)
    (by rw [Builder.openNodes_start]; exact List.cons_ne_nil _ _) rfl
  obtain ⟨awaiting, hend⟩ :=
    Builder.exists_run_node hrun (h.openNodes.trans Builder.openNodes_start)
  have hself : b.tree.Keeps b.tree Builder.initial.tree.nodes.size :=
    ⟨fun _ hn => ⟨_, hn, .refl _⟩, fun hx => hx⟩
  have hshows := Builder.shows_node hinitial h hself
  refine ⟨b.tree, Builder.initial.nextNode, ?_, ?_, ?_, hshows⟩
  · have hextra : b.extraRoot = none := by
      rw [h.extraRoot, Builder.extraRoot_start]
      rfl
    rw [Tree.ofEvents, Piece.events, Builder.run_label rfl]
    show (Builder.initial.run _ >>= _) = _
    rw [hend]
    exact (Builder.toTree_eq_ok_iff (b := { b with openNodes := [], awaiting := awaiting })).mpr
      ⟨rfl, hextra, rfl⟩
  · rw [h.root, Builder.root_start]
    rfl
  · have hread := Tree.shape?_of_shows h.ordered.tree b.tree.nodes.size hshows fun id _ =>
      Nat.le_add_left _ _
    cases hroot : b.tree.shape? b.tree.nodes.size (.node Builder.initial.nextNode) with
    | none => simp [hroot] at hread
    | some shape => simpa [hroot, Piece.shape?] using hread

/-- A name that was set singly becomes the first entry of a list. -/
example :
    boundBy
        [(some (.assign "arg"), .token ⟨0⟩), (none, .token ⟨1⟩), (some (.append "arg"), .node ⟨1⟩)]
        "arg" = some (.many [.token ⟨0⟩, .node ⟨1⟩]) := by
  decide

end TreeSchema
