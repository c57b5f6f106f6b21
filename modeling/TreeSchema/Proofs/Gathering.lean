/-
All children of an element, relation by relation.

`View.allChildren` follows one relation after the other, and the schema may grow on the way.  What
comes out does not depend on that: the children behind a relation are read off the node, and each
of them is seen as the node that stands in for it, unless that is dropped.  So the nodes of all
children are known beforehand, from the list of relations and from the tree.

In a tree that was built, different children of a node are seen as different nodes, because from
what is below a child the parents lead up to that child and to no other.
-/
import TreeSchema.Proofs.Upward

namespace TreeSchema

/-- What the steps give, list by list, of which the result is the row. -/
theorem Ends.flatMapM_forall₂ {ε σ α β : Type} {E : ε → σ → Prop} {g : β → EStateM ε σ (List α)}
    {l : List β} {p : β → List α → Prop}
    (hstep : ∀ b ∈ l, ∀ s, Ends (g b) s (fun xs _ => p b xs) E) :
    ∀ s, Ends (l.flatMapM g) s
      (fun xs _ => ∃ xss, List.Forall₂ p l xss ∧ xs = xss.flatten) E := by
  induction l with
  | nil => exact fun s => pure ⟨[], .nil, rfl⟩
  | cons b l ih =>
      intro s
      have hrest := ih fun c hc => hstep c (List.mem_cons_of_mem _ hc)
      rw [List.flatMapM_cons]
      refine bind (hstep b List.mem_cons_self s) fun xs s' hxs => ?_
      refine bind (hrest s') fun ys _ hys => pure ?_
      obtain ⟨yss, hyss, rfl⟩ := hys
      exact ⟨xs :: yss, .cons hxs hyss, rfl⟩

/-! ### The relations of an entity -/

/-- The relations of an entity, own and inherited, in the order in which they are listed. -/
def Schema.relations (s : Schema) (id : EntityId) : List Relation :=
  (s.features id).filterMap Feature.relation?

namespace Schema

variable {b : Blueprint} {s s' : Schema} {id : EntityId} {r : Relation} {kind : String}

theorem mem_relations_iff : r ∈ s.relations id ↔ .relation r ∈ s.features id := by
  unfold relations
  rw [List.mem_filterMap]
  constructor
  · intro hlisted
    obtain ⟨f, hf, hr⟩ := hlisted
    cases f with
    | property p => cases hr
    | relation q =>
        cases hr
        exact hf
  · intro hr
    exact ⟨.relation r, hr, rfl⟩

/-- No two relations have the same name. -/
theorem pairwise_relations (s : Schema) (id : EntityId) :
    (s.relations id).Pairwise fun r r' => r.name ≠ r'.name := by
  have hfeatures : (s.features id).Pairwise fun f g => f.name ≠ g.name :=
    pairwise_firstOfEachName _
  refine hfeatures.filterMap _ ?_
  intro f g hne r hr r' hr'
  cases f with
  | property p => cases hr
  | relation q =>
      cases g with
      | property p => cases hr'
      | relation q' =>
          cases hr
          cases hr'
          exact hne

/-- The features of an entity that is there stay as they are. -/
theorem Extends.features_eq (h : s.Extends s') (hs : Consistent b s) (hs' : Consistent b s')
    (hid : s.idOf? kind = some id) : s'.features id = s.features id := by
  have hancestry : s'.ancestry id = s.ancestry id :=
    List.right_unique_forall₂' (fun _ _ _ hp hq => Option.some.inj (hp.symm.trans hq))
      (hs'.forall₂_ancestry (h.idOf? hid)) ((hs.forall₂_ancestry hid).imp fun _ _ => h.idOf?)
  have hgrown : ∀ p ∈ s.ancestry id, ∃ e e', s.entity? p = some e ∧ s'.entity? p = some e' ∧
      e'.features = e.features := by
    intro p hp
    obtain ⟨ancestor, -, hpid⟩ := (hs.mem_ancestry_iff hid).mp hp
    obtain ⟨e, he, -⟩ := hs.idOf?_eq_some_iff.mp hpid
    obtain ⟨e', he', hgrown⟩ := h.entity he
    exact ⟨e, e', he, he', hgrown.features_eq⟩
  unfold features
  rw [hancestry]
  congr 1
  generalize s.ancestry id = ids at hgrown
  induction ids with
  | nil => rfl
  | cons p ids ih =>
      obtain ⟨e, e', he, he', hfeatures⟩ := hgrown p List.mem_cons_self
      have hrest := ih fun q hq => hgrown q (List.mem_cons_of_mem _ hq)
      rw [List.filterMap_cons_some he, List.filterMap_cons_some he', List.flatMap_cons,
        List.flatMap_cons, hfeatures, hrest]

end Schema

/-! ### What a child is seen as -/

namespace View

variable {v : View} {s s' : Schema} {e : Element} {ds : List Element} {c : Child} {i j : NodeId}

/-- The node that a child is seen as, if it is kept. -/
def seenAs? (v : View) : Child → Option NodeId
  | .node i => (v.blueprint.kept? v.tree i).toOption.join
  | .token _ => none

/-- The nodes that a relation of an element leads to. -/
def shown (v : View) (e : Element) (r : Relation) : List NodeId :=
  (v.held e (.relation r)).filterMap v.seenAs?

theorem seenAs?_eq_some_iff :
    v.seenAs? c = some j ↔ ∃ i, c = .node i ∧ v.blueprint.kept? v.tree i = .ok (some j) := by
  cases c with
  | token x => simp [seenAs?]
  | node i =>
      unfold seenAs?
      cases hkept : v.blueprint.kept? v.tree i with
      | error err => simp [Except.toOption, hkept]
      | ok k => simp [Except.toOption, hkept]

theorem keeps_eq_isSome (v : View) (c : Child) : v.keeps c = (v.seenAs? c).isSome := by
  cases c with
  | token x => rfl
  | node i =>
      simp only [keeps, seenAs?]
      cases v.blueprint.kept? v.tree i with
      | error err => rfl
      | ok k => cases k <;> rfl

/-- What the children of a relation are seen as one by one are the nodes that it leads to. -/
theorem map_node_of_seenAs (cs : List Child) :
    ∀ {ds : List Element}, List.Forall₂ v.SeenAs (cs.filter v.keeps) ds →
      ds.map Element.node = cs.filterMap v.seenAs? := by
  induction cs with
  | nil =>
      intro ds h
      cases h
      rfl
  | cons c cs ih =>
      intro ds h
      cases hc : v.seenAs? c with
      | none =>
          rw [List.filter_cons_of_neg (by simp [keeps_eq_isSome, hc])] at h
          rw [List.filterMap_cons_none hc]
          exact ih h
      | some j =>
          obtain ⟨i, rfl, hkept⟩ := seenAs?_eq_some_iff.mp hc
          rw [List.filter_cons_of_pos (by simp [keeps_eq_isSome, hc])] at h
          cases h with
          | @cons _ d _ _ hd hrest =>
              obtain ⟨i', hi', hd⟩ := hd
              cases hi'
              rw [hkept, Except.ok.injEq, Option.some.injEq] at hd
              rw [List.filterMap_cons_some hc, List.map_cons, ih hrest, hd]

/-- All children of an element: behind each relation there are nodes, of which it is known what
they are seen as, and what they are seen as is what comes out, relation by relation. -/
structure Gathered (v : View) (s : Schema) (e : Element) (ds : List Element) : Prop where
  read : ∀ r ∈ s.relations e.entity, ∃ x, v.filling e r.name = .ok x ∧
    ∀ c ∈ x.toList, ∃ i k, c = .node i ∧ v.blueprint.kept? v.tree i = .ok k
  nodes : ds.map Element.node = (s.relations e.entity).flatMap (v.shown e)

theorem ends_allChildren_gathered (e : Element) (s : Schema) :
    Ends (v.allChildren e) s (fun ds _ => v.Gathered s e ds) fun _ _ => True := by
  refine Ends.bind_get ((Ends.flatMapM_forall₂ (fun r _ s => ends_related_kept r) s).imp ?_)
  intro ds s' hrows
  obtain ⟨dss, hall, hds⟩ := hrows
  subst hds
  have hrow : List.Forall₂ (fun r ds => ds.map Element.node = v.shown e r)
      (s.relations e.entity) dss := by
    refine hall.imp fun r ds hr => ?_
    obtain ⟨x, hx, -, hseen⟩ := hr
    rw [map_node_of_seenAs x.toList hseen, shown, held, Feature.name, hx]
    rfl
  refine ⟨?_, ?_⟩
  · intro r hr
    obtain ⟨ds, -, x, hx, hkept, -⟩ := exists_of_mem_left hall hr
    exact ⟨x, hx, hkept⟩
  · rw [List.map_flatten, List.flatMap_def]
    congr 1
    generalize s.relations e.entity = rs at hrow
    clear hall
    induction hrow with
    | nil => rfl
    | cons hds _ ih => rw [List.map_cons, List.map_cons, hds, ih]

end View

/-! ### Ways up -/

/-- From a node the parents lead up to another, or it is that one. -/
def Tree.Up (t : Tree) : NodeId → NodeId → Prop :=
  Relation.ReflTransGen (t.parent? · = some ·)

namespace Tree

variable {t : Tree} {n : Node} {i j c d : NodeId}

/-- In a tree whose links agree and lead forward, parents come first. -/
theorem index_lt_of_parent? (ho : t.Ordered) (hl : t.Linked) (h : t.parent? j = some i) :
    i.index < j.index := by
  obtain ⟨n, hn, hparent⟩ := Option.bind_eq_some_iff.mp h
  obtain ⟨m, hm, hmem⟩ := hl.parent hn hparent
  exact (ho.child hm hmem).1

theorem Up.index_le (ho : t.Ordered) (hl : t.Linked) (h : t.Up j i) : i.index ≤ j.index := by
  induction h with
  | refl => exact Nat.le_refl _
  | tail _ hstep ih => exact Nat.le_trans (Nat.le_of_lt (index_lt_of_parent? ho hl hstep)) ih

/-- Of two nodes that the parents of a third lead up to, one is above the other. -/
theorem Up.total (hc : t.Up j c) (hd : t.Up j d) : t.Up c d ∨ t.Up d c :=
  Relation.ReflTransGen.total_of_right_unique
    (fun _ _ _ h h' => Option.some.inj (h.symm.trans h')) hc hd

/-- The parents of a node lead up to one child of another node at most. -/
theorem Up.child_unique (ho : t.Ordered) (hl : t.Linked) (hn : t.node? i = some n)
    (hc : .node c ∈ n.children) (hd : .node d ∈ n.children) (hjc : t.Up j c) (hjd : t.Up j d) :
    c = d := by
  have hkey : ∀ {c d}, .node c ∈ n.children → .node d ∈ n.children → t.Up c d → c = d := by
    intro c d hc hd h
    rcases Relation.ReflTransGen.cases_head h with rfl | ⟨p, hp, hrest⟩
    · rfl
    · -- the way from `c` goes over the common parent, which comes before `d`
      rw [hl.parent?_child hn hc, Option.some.injEq] at hp
      subst hp
      have hle := Up.index_le ho hl hrest
      have hlt := (ho.child hn hd).1
      omega
  rcases hjc.total hjd with h | h
  · exact hkey hc hd h
  · exact (hkey hd hc h).symm

/-- The node that is seen in the place of another is below it. -/
theorem up_of_elide {b : Blueprint} (hl : t.Linked) (h : b.elide t i = .ok j) : t.Up j i := by
  obtain ⟨hpath, -⟩ := Blueprint.elide_eq_ok_iff.mp h
  clear h
  induction hpath with
  | refl => exact .refl
  | tail _ hstep ih =>
      obtain ⟨m, hm, -, hstand⟩ := Blueprint.standIn?_eq_some_iff.mp hstep
      exact .head (hl.parent?_child hm (Blueprint.mem_of_standIn hstand)) ih

end Tree

namespace View

variable {v : View} {e : Element} {n : Node} {c d : Child} {j : NodeId}

theorem up_of_seenAs? (hl : v.tree.Linked) (h : v.seenAs? c = some j) :
    ∃ i, c = .node i ∧ v.tree.Up j i := by
  obtain ⟨i, rfl, hkept⟩ := seenAs?_eq_some_iff.mp h
  exact ⟨i, rfl, Tree.up_of_elide hl (Blueprint.elide_of_kept? hkept).1⟩

/-- Different children of a node are seen as different nodes. -/
theorem seenAs?_inj (ht : v.tree.Built) {i : NodeId} (hn : v.tree.node? i = some n)
    (hc : c ∈ n.children) (hd : d ∈ n.children) (hcj : v.seenAs? c = some j)
    (hdj : v.seenAs? d = some j) : c = d := by
  obtain ⟨k, rfl, hk⟩ := up_of_seenAs? ht.linked hcj
  obtain ⟨l, rfl, hl⟩ := up_of_seenAs? ht.linked hdj
  rw [hk.child_unique ht.ordered ht.linked hn hc hd hl]

end View

end TreeSchema
