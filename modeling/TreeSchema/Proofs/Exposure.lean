/-
Children that are exposed twice.

A relation is read off the names that the node bound, or else, for a default accessor, by looking
through all children for those of a kind that conforms.  Nothing keeps two relations from finding
the same child: a call is an expression, so a slot for expressions and one for calls both find it,
and a slot for calls finds those that are bound to the label of another slot as well.  Of several
slots a default accessor is only given up if another has the same kind for its target.

So a child comes up twice among all children of an element exactly if two of its relations hold it,
and then at least one of them is such a search, unless renames make both go back to one name.
Where no child is held twice, each child is seen as a different node, what is below one is not
below another, and a walk shows every node once at most.

What a walk shows is a `Tour`, in which each element is followed by what is shown of its offspring.
A walk that fails has shown a tour as well, of the part of each row that it got to.  That tours show
different nodes is then an induction on the tour, in which neither schema nor visitor takes part.
-/
import TreeSchema.Proofs.Gathering
import TreeSchema.Proofs.Labels

namespace TreeSchema

namespace Blueprint

variable {b : Blueprint} {t : Tree} {n m : Node} {id i : NodeId} {feature : String} {x : Filling}

/-! ### How a node comes to be behind a feature -/

/-- A node is bound to the name that the slot behind a feature was found by. -/
def BoundFor (b : Blueprint) (n : Node) (feature : String) (i : NodeId) : Prop :=
  ∃ name slot, b.declaredSlot? n.kind feature = some (name, slot) ∧ n.Binds name (.node i)

/-- The slot behind a feature is a default accessor and nothing is bound to its name, so that all
children are looked through, and a node is of a kind that conforms to its target. -/
def CollectedFor (b : Blueprint) (t : Tree) (n : Node) (feature : String) (i : NodeId) : Prop :=
  ∃ name slot target m, b.declaredSlot? n.kind feature = some (name, slot) ∧
    n.bindings.find? name = none ∧ slot.accessor = .default ∧ slot.item = .node target ∧
    t.node? i = some m ∧ b.grammar.conforms m.kind target = true

/-- Looking through the children of a node finds nodes of kinds that conform. -/
theorem exists_target_of_mem_fitting {name : String} {slot : Slot} {cs : List Child}
    (h : b.fitting t n name slot = .ok cs) (hi : .node i ∈ cs) :
    ∃ target m, slot.item = .node target ∧ t.node? i = some m ∧
      b.grammar.conforms m.kind target = true := by
  cases hitem : slot.item with
  | node target =>
      rw [eq_filter_of_fitting hitem h, hitem] at hi
      exact exists_of_fits_node (of_decide_eq_true (List.mem_filter.mp hi).2)
  | terminal symbol =>
      simp only [fitting, hitem] at h
      cases htype : b.grammar.vocabulary.type? symbol with
      | none =>
          rw [htype] at h
          cases h
      | some type =>
          rw [htype] at h
          have htest := (filterM_passed h).2 _ hi
          cases htest

/-- A node is behind a feature because it is bound, or because it was found. -/
theorem bound_or_collected (hn : t.node? id = some n) (h : b.filling t id feature = .ok x)
    (hi : .node i ∈ x.toList) : b.BoundFor n feature i ∨ b.CollectedFor t n feature i := by
  cases hdeclared : b.declaredSlot? n.kind feature with
  | none =>
      unfold filling at h
      rw [Tree.node_eq_ok_iff.mpr hn] at h
      simp only [bind, Except.bind, hdeclared] at h
      cases h
  | some found =>
      obtain ⟨name, slot⟩ := found
      rw [filling_eq hn hdeclared] at h
      cases hbinding : n.bindings.find? name with
      | some binding =>
          simp only [hbinding] at h
          cases h
          exact .inl ⟨name, slot, hdeclared, binding, hbinding, hi⟩
      | none =>
          simp only [hbinding] at h
          by_cases hdefault : slot.isDefault = true
          · rw [if_pos hdefault] at h
            obtain ⟨cs, hcs, rfl⟩ := map_eq_ok_iff.mp h
            obtain ⟨target, m, hitem, hm, hconforms⟩ :=
              exists_target_of_mem_fitting hcs (Filling.mem_of_mem_ofFound hi)
            exact .inr ⟨name, slot, target, m, hdeclared, hbinding, of_decide_eq_true hdefault,
              hitem, hm, hconforms⟩
          · rw [if_neg hdefault] at h
            cases h
            cases harity : slot.arity <;> simp [harity, Filling.empty, Filling.toList] at hi

/-- Without renames a slot is found by the name of the feature. -/
theorem name_of_declaredSlot? (hplain : ∀ p ∈ b.config.rules.entries, p.2.renames = ∅)
    {kind name : String} {slot : Slot} (h : b.declaredSlot? kind feature = some (name, slot)) :
    name = feature := by
  unfold declaredSlot? at h
  simp only [Config.slotName_eq hplain] at h
  obtain ⟨k, -, hk⟩ := List.exists_of_findSome?_eq_some h
  obtain ⟨s, -, hs⟩ := Option.map_eq_some_iff.mp hk
  cases hs
  rfl

end Blueprint

/-! ### Relations that hold one child -/

namespace View

variable {v : View} {s s' : Schema} {e d : Element} {r r' : Relation} {n : Node} {i j : NodeId}
  {ds : List Element}

/-- A child is behind two relations of an element, and is seen as some node. -/
structure Shared (v : View) (e : Element) (r r' : Relation) (i : NodeId) : Prop where
  left : .node i ∈ v.held e (.relation r)
  right : .node i ∈ v.held e (.relation r')
  kept : ∃ j, v.seenAs? (.node i) = some j

/-- No child of an element is behind two of its relations. -/
def Unshared (v : View) (s : Schema) (e : Element) : Prop :=
  (s.relations e.entity).Pairwise fun r r' => ∀ i, ¬ v.Shared e r r' i

/-- What it takes for two relations of an element to hold one child: one of them has found it by its
kind, or both go back to one name, because of renames. -/
def Overlaps (v : View) (e : Element) (r r' : Relation) (i : NodeId) : Prop :=
  ∃ n, v.tree.node? e.node = some n ∧
    (v.blueprint.CollectedFor v.tree n r.name i ∨ v.blueprint.CollectedFor v.tree n r'.name i ∨
      (∃ p ∈ v.blueprint.config.rules.entries, p.2.renames ≠ ∅) ∧
        ∃ name slot slot', v.blueprint.declaredSlot? n.kind r.name = some (name, slot) ∧
          v.blueprint.declaredSlot? n.kind r'.name = some (name, slot') ∧
          n.Binds name (.node i))

/-- A child that is held is behind what was read. -/
theorem exists_filling_of_mem_held {f : Feature} {c : Child} (h : c ∈ v.held e f) :
    ∃ x, v.filling e f.name = .ok x ∧ v.held e f = x.toList := by
  unfold held at h ⊢
  cases hx : v.filling e f.name with
  | error err => simp [hx, Except.toOption] at h
  | ok x => exact ⟨x, rfl, rfl⟩

theorem held_sublist (ht : v.tree.Built) {f : Feature} (hn : v.tree.node? e.node = some n) :
    (v.held e f).Sublist n.children := by
  unfold held
  cases hx : v.filling e f.name with
  | error err => exact List.nil_sublist _
  | ok x =>
      obtain ⟨m, hm, hsublist⟩ := Blueprint.filling_sublist ht hx
      obtain rfl := Option.some.inj (hn.symm.trans hm)
      exact hsublist

/-- A child that two relations hold is found by one of them, or renamed. -/
theorem Shared.overlaps (ht : v.tree.Built) (hn : v.tree.node? e.node = some n)
    (hname : r.name ≠ r'.name) (h : v.Shared e r r' i) : v.Overlaps e r r' i := by
  obtain ⟨x, hx, hheld⟩ := exists_filling_of_mem_held h.left
  obtain ⟨x', hx', hheld'⟩ := exists_filling_of_mem_held h.right
  refine ⟨n, hn, ?_⟩
  rcases Blueprint.bound_or_collected hn hx (hheld ▸ h.left) with hbound | hfound
  · rcases Blueprint.bound_or_collected hn hx' (hheld' ▸ h.right) with hbound' | hfound'
    · obtain ⟨name, slot, hslot, hbinds⟩ := hbound
      obtain ⟨name', slot', hslot', hbinds'⟩ := hbound'
      obtain rfl := ht.binds_unique hn hbinds hbinds'
      refine .inr (.inr ⟨?_, name, slot, slot', hslot, hslot', hbinds⟩)
      by_contra hplain
      have hnone : ∀ p ∈ v.blueprint.config.rules.entries, p.2.renames = ∅ := by
        intro p hp
        by_contra hrenames
        exact hplain ⟨p, hp, hrenames⟩
      refine hname ?_
      calc r.name = name := (Blueprint.name_of_declaredSlot? hnone hslot).symm
        _ = r'.name := Blueprint.name_of_declaredSlot? hnone hslot'
    · exact .inr (.inl hfound')
  · exact .inl hfound

/-! ### Different nodes -/

theorem mem_shown_iff : j ∈ v.shown e r ↔ ∃ c ∈ v.held e (.relation r), v.seenAs? c = some j :=
  List.mem_filterMap

/-- One relation leads to different nodes. -/
theorem nodup_shown (ht : v.tree.Built) (hn : v.tree.node? e.node = some n) (r : Relation) :
    (v.shown e r).Nodup := by
  have hsublist := held_sublist ht (f := .relation r) hn
  have hnodup := (ht.linked.nodup hn).sublist hsublist
  refine List.Pairwise.filterMap (R := fun c d => c ∈ n.children ∧ d ∈ n.children ∧ c ≠ d) _ ?_ ?_
  · intro c d hcd j hj j' hj' hjj'
    obtain ⟨hc, hd, hne⟩ := hcd
    subst hjj'
    exact hne (seenAs?_inj ht hn hc hd hj hj')
  · refine hnodup.imp_of_mem ?_
    intro c d hc hd hne
    exact ⟨hsublist.subset hc, hsublist.subset hd, hne⟩

/-- Two relations lead to different nodes exactly if they hold different children. -/
theorem disjoint_shown_iff (ht : v.tree.Built) (hn : v.tree.node? e.node = some n) :
    (v.shown e r).Disjoint (v.shown e r') ↔ ∀ i, ¬ v.Shared e r r' i := by
  constructor
  · intro hdisjoint i h
    obtain ⟨j, hj⟩ := h.kept
    exact hdisjoint (mem_shown_iff.mpr ⟨_, h.left, hj⟩) (mem_shown_iff.mpr ⟨_, h.right, hj⟩)
  · intro h j hj hj'
    obtain ⟨c, hc, hcj⟩ := mem_shown_iff.mp hj
    obtain ⟨d, hd, hdj⟩ := mem_shown_iff.mp hj'
    obtain rfl := seenAs?_inj ht hn ((held_sublist ht hn).subset hc)
      ((held_sublist ht hn).subset hd) hcj hdj
    obtain ⟨i, rfl, -⟩ := seenAs?_eq_some_iff.mp hcj
    exact h i ⟨hc, hd, j, hcj⟩

/-- All children of an element are different nodes exactly if no child is behind two relations. -/
theorem Gathered.nodup_iff (h : v.Gathered s e ds) (ht : v.tree.Built)
    (hn : v.tree.node? e.node = some n) :
    (ds.map Element.node).Nodup ↔ v.Unshared s e := by
  rw [h.nodes, List.nodup_flatMap, and_iff_right fun r _ => nodup_shown ht hn r, Unshared]
  refine List.Pairwise.iff ?_
  intro r r'
  exact disjoint_shown_iff ht hn

/-- Which children are behind two relations is settled once the entity of an element is there. -/
theorem Stands.unshared_iff (he : v.Stands s e) (hs : Finished v.blueprint s)
    (h : Evolves v.blueprint s s') : v.Unshared s' e ↔ v.Unshared s e := by
  obtain ⟨n, -, hid⟩ := he
  have hfeatures := h.extends_.features_eq hs.consistent h.finished.consistent hid
  rw [Unshared, Unshared, Schema.relations, Schema.relations, hfeatures]

/-! ### What a walk shows -/

/-- Elements below an element that a walk goes on to.  They are different nodes if no child of that
element is behind two relations. -/
structure Offspring (v : View) (s : Schema) (e : Element) (cs : List Element) : Prop where
  stands : v.Stands s e
  below : ∀ d ∈ cs, v.Below s e d
  apart : v.Unshared s e → (cs.map Element.node).Nodup

/-- What is shown of a row of elements and of what is below them: each element is followed by what
is shown of its offspring, and then comes the rest of the row. -/
inductive Tour (v : View) (s : Schema) : List Element → List Element → Prop
  | done : Tour v s [] []
  | step {c : Element} {below row ds ds' : List Element} (offspring : v.Offspring s c below)
      (down : Tour v s below ds) (on : Tour v s row ds') : Tour v s (c :: row) (c :: (ds ++ ds'))

/-- From no node the parents lead up to two elements of a row. -/
def Apart (t : Tree) (row : List Element) : Prop :=
  row.Pairwise fun c d => ∀ i, t.Up i c.node → ¬ t.Up i d.node

section Tours

variable {row row' ds' cs : List Element}

theorem Offspring.later (h : v.Offspring s e cs) (hs : Finished v.blueprint s)
    (hevolves : Evolves v.blueprint s s') : v.Offspring s' e cs where
  stands := h.stands.later hevolves.extends_
  below d hd := (h.below d hd).later hevolves.extends_
  apart hunshared := h.apart ((h.stands.unshared_iff hs hevolves).mp hunshared)

theorem Tour.later (h : v.Tour s row ds) (hs : Finished v.blueprint s)
    (hevolves : Evolves v.blueprint s s') : v.Tour s' row ds := by
  induction h with
  | done => exact .done
  | step hoffspring _ _ ihdown ihon => exact .step (hoffspring.later hs hevolves) ihdown ihon

theorem Tour.append (h : v.Tour s row ds) (h' : v.Tour s row' ds') :
    v.Tour s (row ++ row') (ds ++ ds') := by
  induction h with
  | done => exact h'
  | step hoffspring hdown _ _ ihon =>
      rw [List.cons_append, List.cons_append, List.append_assoc]
      exact .step hoffspring hdown ihon

/-- The parents of an element below another lead up to the node of that one, by way of the child
that it is seen in the place of. -/
theorem Below.exists_child (h : v.Below s e d) (hl : v.tree.Linked)
    (hn : v.tree.node? e.node = some n) : ∃ i, .node i ∈ n.children ∧
      v.blueprint.elide v.tree i = .ok d.node ∧ v.tree.Up d.node i ∧
      v.tree.parent? i = some e.node := by
  obtain ⟨m, i, hm, hi, hseen⟩ := h.child
  obtain rfl := Option.some.inj (hn.symm.trans hm)
  exact ⟨i, hi, hseen, Tree.up_of_elide hl hseen, hl.parent?_child hn hi⟩

theorem Below.index_lt (h : v.Below s e d) (ht : v.tree.Built) :
    e.node.index < d.node.index := by
  obtain ⟨n, -, hn, -⟩ := h.child
  obtain ⟨i, -, -, hup, hparent⟩ := h.exists_child ht.linked hn
  have hle := Tree.Up.index_le ht.ordered ht.linked hup
  have hlt := Tree.index_lt_of_parent? ht.ordered ht.linked hparent
  omega

theorem Below.up (h : v.Below s e d) (hl : v.tree.Linked) : v.tree.Up d.node e.node := by
  obtain ⟨n, -, hn, -⟩ := h.child
  obtain ⟨i, -, -, hup, hparent⟩ := h.exists_child hl hn
  exact .tail hup hparent

/-- What is below one of the offspring of an element is not below another, if no child of that
element is behind two relations. -/
theorem Offspring.apart_nodes (h : v.Offspring s e cs) (ht : v.tree.Built)
    (hunshared : v.Unshared s e) : Apart v.tree cs := by
  obtain ⟨n, hn, -⟩ := h.stands
  have hnodup : cs.Pairwise fun c d => c.node ≠ d.node :=
    List.pairwise_map.mp (h.apart hunshared)
  refine hnodup.imp_of_mem ?_
  intro c d hc hd hne i hic hid
  obtain ⟨j, hj, hseen, hup, -⟩ := (h.below c hc).exists_child ht.linked hn
  obtain ⟨k, hk, hseen', hup', -⟩ := (h.below d hd).exists_child ht.linked hn
  obtain rfl := Tree.Up.child_unique ht.ordered ht.linked hn hj hk (hic.trans hup) (hid.trans hup')
  exact hne (Except.ok.inj (hseen.symm.trans hseen'))

/-- From all that is shown the parents lead up to the row. -/
theorem Tour.exists_up (h : v.Tour s row ds) (hl : v.tree.Linked) :
    ∀ d ∈ ds, ∃ c ∈ row, v.tree.Up d.node c.node := by
  induction h with
  | done => simp
  | @step c below row ds ds' hoffspring _ _ ihdown ihon =>
      intro d hd
      rcases List.mem_cons.mp hd with rfl | hd
      · exact ⟨d, List.mem_cons_self, .refl⟩
      rcases List.mem_append.mp hd with hd | hd
      · obtain ⟨c', hc', hup⟩ := ihdown d hd
        exact ⟨c, List.mem_cons_self, hup.trans ((hoffspring.below c' hc').up hl)⟩
      · obtain ⟨c', hc', hup⟩ := ihon d hd
        exact ⟨c', List.mem_cons_of_mem _ hc', hup⟩

/-- If no child of an element that is shown is behind two relations, then different nodes are
shown. -/
theorem Tour.nodup (h : v.Tour s row ds) (ht : v.tree.Built) (hrow : Apart v.tree row)
    (hunshared : ∀ d ∈ ds, v.Unshared s d) : (ds.map Element.node).Nodup := by
  induction h with
  | done => exact List.nodup_nil
  | @step c below row ds ds' hoffspring hdown hon ihdown ihon =>
      obtain ⟨hfirst, hrest⟩ := List.pairwise_cons.mp hrow
      have hbelow := hoffspring.apart_nodes ht (hunshared c List.mem_cons_self)
      have hds := ihdown hbelow fun d hd => hunshared d (by simp [hd])
      have hds' := ihon hrest fun d hd => hunshared d (by simp [hd])
      have hdeeper : ∀ d ∈ ds, v.tree.Up d.node c.node ∧ c.node.index < d.node.index := by
        intro d hd
        obtain ⟨c', hc', hup⟩ := hdown.exists_up ht.linked d hd
        have hc := hoffspring.below c' hc'
        exact ⟨hup.trans (hc.up ht.linked), Nat.lt_of_lt_of_le (hc.index_lt ht)
          (hup.index_le ht.ordered ht.linked)⟩
      -- what comes after `c` and its offspring is below another element of the row
      have hapart : ∀ i, v.tree.Up i c.node → i ∉ ds'.map Element.node := by
        intro i hi hmem
        obtain ⟨d, hd, rfl⟩ := List.mem_map.mp hmem
        obtain ⟨c', hc', hup⟩ := hon.exists_up ht.linked d hd
        exact hfirst c' hc' d.node hi hup
      rw [List.map_cons, List.map_append, List.nodup_cons, List.mem_append, not_or]
      refine ⟨⟨?_, hapart c.node .refl⟩, hds.append hds' ?_⟩
      · intro hmem
        obtain ⟨d, hd, hnode⟩ := List.mem_map.mp hmem
        have hlt := (hdeeper d hd).2
        rw [hnode] at hlt
        omega
      · intro i hi
        obtain ⟨d, hd, rfl⟩ := List.mem_map.mp hi
        exact hapart d.node (hdeeper d hd).1

end Tours

/-! ### Walks -/

section Walks

/-- The calls of a visitor one after the other, by what it was shown and what it failed with. -/
abbrev Record := List (Element × Option Error)

variable {σ : Type} {visitor : Visitor v.blueprint σ} {cs row row' : List Element}
  {t t' t'' : Schema × σ × Record}

/-- A visitor that keeps a record of its calls. -/
def recording (visitor : Element → Visiting σ Unit) (d : Element) : Visiting (σ × Record) Unit :=
  fun (s, x, calls) =>
    match visitor d (s, x) with
    | .ok () (s, x) => .ok () (s, x, calls ++ [(d, none)])
    | .error err (s, x) => .error err (s, x, calls ++ [(d, some err)])

/-- From one state of a recorded walk to another a row of elements has been shown, with what is
below them. -/
structure Toured (v : View) (row : List Element) (t t' : Schema × σ × Record) : Prop where
  evolves : Evolves v.blueprint t.1 t'.1
  shown : ∃ ds, v.Tour t'.1 row ds ∧ t'.2.2.map Prod.fst = t.2.2.map Prod.fst ++ ds

theorem Toured.nothing (h : Evolves v.blueprint t.1 t'.1) (hsame : t'.2.2 = t.2.2) :
    v.Toured [] t t' :=
  ⟨h, [], .done, by rw [hsame, List.append_nil]⟩

theorem Toured.trans (h : v.Toured row t t') (h' : v.Toured row' t' t'') :
    v.Toured (row ++ row') t t'' := by
  obtain ⟨ds, htour, hds⟩ := h.shown
  obtain ⟨ds', htour', hds'⟩ := h'.shown
  refine ⟨h.evolves.trans h'.evolves, ds ++ ds', ?_, ?_⟩
  · exact (htour.later h.evolves.finished h'.evolves).append htour'
  · rw [hds', hds, List.append_assoc]

/-- A request to the schema leaves the record as it is. -/
theorem ends_onSchema {α : Type} {request : Deriving α} {Q : α → Schema → Prop}
    {E : Error → Schema → Prop} (h : Ends request t.1 Q E) :
    Ends (Visiting.onSchema request) t (fun a t' => Q a t'.1 ∧ t'.2 = t.2)
      fun err t' => E err t'.1 ∧ t'.2 = t.2 := by
  unfold Ends at h ⊢
  dsimp only [Visiting.onSchema]
  cases hr : request t.1 with
  | ok a s' => rw [hr] at h; exact ⟨h, rfl⟩
  | error err s' => rw [hr] at h; exact ⟨h, rfl⟩

theorem ends_recording (visitor : Element → Visiting σ Unit) (d : Element) :
    Ends (recording visitor d) t
      (fun _ t' => visitor d (t.1, t.2.1) = .ok () (t'.1, t'.2.1) ∧
        t'.2.2 = t.2.2 ++ [(d, none)])
      fun err t' => visitor d (t.1, t.2.1) = .error err (t'.1, t'.2.1) ∧
        t'.2.2 = t.2.2 ++ [(d, some err)] := by
  unfold Ends
  dsimp only [recording]
  cases h : visitor d (t.1, t.2.1) with
  | ok u y => exact ⟨rfl, rfl⟩
  | error err y => exact ⟨rfl, rfl⟩

/-- However it ends, the visitor was shown the element, and has only asked for more. -/
theorem ends_recording_asks (visitor : Visitor v.blueprint σ) (hs : Finished v.blueprint t.1)
    (d : Element) :
    Ends (recording visitor.act d) t
      (fun _ t' => Evolves v.blueprint t.1 t'.1 ∧ t'.2.2 = t.2.2 ++ [(d, none)])
      fun err t' => Evolves v.blueprint t.1 t'.1 ∧ t'.2.2 = t.2.2 ++ [(d, some err)] ∧
        visitor.act d (t.1, t.2.1) = .error err (t'.1, t'.2.1) := by
  have hasks := visitor.asks d (t.1, t.2.1) hs
  exact (ends_recording visitor.act d).mono (fun _ _ h => ⟨(hasks.of_ok h.1).1, h.2⟩)
    fun _ _ h => ⟨hasks.of_error h.1, h.2, h.1⟩

theorem ends_allChildren_offspring (ht : v.tree.Built) (hs : Finished v.blueprint s)
    (he : v.Stands s e) :
    Ends (v.allChildren e) s
      (fun cs s' => Evolves v.blueprint s s' ∧ v.Offspring s' e cs)
      fun _ s' => Evolves v.blueprint s s' := by
  obtain ⟨n, hn⟩ : ∃ n, v.tree.node? e.node = some n := he.imp fun _ h => h.1
  refine ((issues_allChildren e s hs).and ((ends_allChildren_below hs hn ht).and
    (ends_allChildren_gathered e s))).mono ?_ fun _ _ h => h.1
  intro cs s' h
  obtain ⟨⟨hevolves, -⟩, ⟨-, hbelow⟩, hgathered⟩ := h
  refine ⟨hevolves, he.later hevolves.extends_, hbelow, ?_⟩
  intro hunshared
  exact (hgathered.nodup_iff ht hn).mpr ((he.unshared_iff hs hevolves).mp hunshared)

/-- If each element of a row is shown with what is below it, then so is the row, or a part of it
that it starts with. -/
theorem ends_forM_toured {show' : Element → Visiting (σ × Record) Unit}
    (hshow : ∀ c t, Finished v.blueprint t.1 → v.Stands t.1 c →
      Ends (show' c) t (fun _ t' => v.Toured [c] t t') fun _ t' => v.Toured [c] t t') :
    ∀ {cs t}, Finished v.blueprint t.1 → (∀ c ∈ cs, v.Stands t.1 c) →
      Ends (cs.forM show') t (fun _ t' => v.Toured cs t t')
        fun _ t' => ∃ row, row <+: cs ∧ v.Toured row t t' := by
  intro cs
  induction cs with
  | nil => exact fun hs _ => Ends.pure (.nothing (.refl hs) rfl)
  | cons c cs ih =>
      intro t hs hstands
      have hc := hshow c t hs (hstands c List.mem_cons_self)
      refine Ends.bind (hc.mono (fun _ _ h => h) fun _ _ h => ⟨[c], ⟨cs, rfl⟩, h⟩) ?_
      intro _ t' h
      have hrest := ih h.evolves.finished fun d hd =>
        (hstands d (List.mem_cons_of_mem _ hd)).later h.evolves.extends_
      refine hrest.mono (fun _ _ h' => h.trans h') fun _ _ h' => ?_
      obtain ⟨row, hrow, h'⟩ := h'
      exact ⟨c :: row, (List.prefix_cons_inj c).mpr hrow, h.trans h'⟩

/-- From one state of a recorded walk to another some offspring of an element has been shown, with
what is below. -/
def Strolled (v : View) (e : Element) (t t' : Schema × σ × Record) : Prop :=
  ∃ row, v.Offspring t'.1 e row ∧ v.Toured row t t'

theorem Offspring.take (h : v.Offspring s e cs) (hrow : row <+: cs) : v.Offspring s e row where
  stands := h.stands
  below d hd := h.below d (hrow.subset hd)
  apart hunshared := (h.apart hunshared).sublist (hrow.sublist.map _)

theorem Strolled.nothing (he : v.Stands t.1 e) (h : Evolves v.blueprint t.1 t'.1)
    (hsame : t'.2.2 = t.2.2) : v.Strolled e t t' :=
  ⟨[], ⟨he.later h.extends_, by simp, by simp⟩, .nothing h hsame⟩

/-- An element that was shown before what is below it. -/
theorem Strolled.toured {c : Element} {o : Option Error} (h : v.Strolled c t' t'')
    (hs : Evolves v.blueprint t.1 t'.1) (hshown : t'.2.2 = t.2.2 ++ [(c, o)]) :
    v.Toured [c] t t'' := by
  obtain ⟨row, hoffspring, hevolves, ds, htour, hds⟩ := h
  refine ⟨hs.trans hevolves, c :: (ds ++ []), .step hoffspring htour .done, ?_⟩
  rw [hds, hshown, List.map_append, List.append_assoc, List.append_nil]
  rfl

/-- An element is shown before what is below it, which is not shown if the visitor fails. -/
theorem ends_element_toured {c : Element} {below : Visiting (σ × Record) Unit}
    (hs : Finished v.blueprint t.1) (hc : v.Stands t.1 c)
    (hbelow : ∀ t', Finished v.blueprint t'.1 → v.Stands t'.1 c →
      Ends below t' (fun _ t'' => v.Strolled c t' t'') fun _ t'' => v.Strolled c t' t'') :
    Ends (do recording visitor.act c; below) t (fun _ t' => v.Toured [c] t t')
      fun _ t' => v.Toured [c] t t' := by
  refine Ends.bind ((ends_recording_asks visitor hs c).mono (fun _ _ h => h) fun _ t' h => ?_) ?_
  · have hnothing : v.Strolled c t' t' :=
      .nothing (hc.later h.1.extends_) (.refl h.1.finished) rfl
    exact hnothing.toured h.1 h.2.1
  · intro _ t' h
    exact (hbelow t' h.1.finished (hc.later h.1.extends_)).mono (fun _ _ h' => h'.toured h.1 h.2)
      fun _ _ h' => h'.toured h.1 h.2

/-- Where no levels are left the walk ends, with an error if there is something to show. -/
theorem ends_lastLevel {err : Error} {Q : Unit → Schema × σ × Record → Prop}
    {E : Error → Schema × σ × Record → Prop} (hnone : cs = [] → Q () t)
    (hdeep : cs ≠ [] → E err t) :
    Ends (do if !cs.isEmpty then throw err : Visiting (σ × Record) Unit) t Q E := by
  cases cs with
  | nil => exact Ends.pure (hnone rfl)
  | cons c cs => exact Ends.throw (hdeep (List.cons_ne_nil c cs))

/-- However a walk below an element ends, it has shown some offspring of the element, one after the
other, with what is below. -/
theorem ends_walk_strolled (ht : v.tree.Built) (levels : Nat) :
    ∀ {e t}, Finished v.blueprint t.1 → v.Stands t.1 e →
      Ends (v.walk (recording visitor.act) levels e) t (fun _ t' => v.Strolled e t t')
        fun _ t' => v.Strolled e t t' := by
  induction levels with
  | zero =>
      intro e t hs he
      refine Ends.bind ((ends_onSchema (ends_allChildren_offspring ht hs he)).mono
        (fun _ _ h => h) fun _ _ h => .nothing he h.1 (congrArg Prod.snd h.2)) ?_
      intro cs t' h
      have hnothing : v.Strolled e t t' := .nothing he h.1.1 (congrArg Prod.snd h.2)
      exact ends_lastLevel (fun _ => hnothing) fun _ => hnothing
  | succ levels ih =>
      intro e t hs he
      refine Ends.bind ((ends_onSchema (ends_allChildren_offspring ht hs he)).mono
        (fun _ _ h => h) fun _ _ h => .nothing he h.1 (congrArg Prod.snd h.2)) ?_
      intro cs t' h
      obtain ⟨⟨hevolves, hoffspring⟩, hsame⟩ := h
      have hstart : v.Toured [] t t' := .nothing hevolves (congrArg Prod.snd hsame)
      refine (ends_forM_toured
        (fun c t hs hc => ends_element_toured hs hc fun _ hs' hc' => ih hs' hc') hevolves.finished
        fun d hd => (hoffspring.below d hd).stands).mono (fun _ t'' h => ?_) fun _ t'' h => ?_
      · exact ⟨cs, hoffspring.later hevolves.finished h.evolves, hstart.trans h⟩
      · obtain ⟨row, htaken, h⟩ := h
        exact ⟨row, (hoffspring.take htaken).later hevolves.finished h.evolves, hstart.trans h⟩

/-- However a visit ends, different nodes were shown, if no child of an element that was shown, or
of the one that it began with, is behind two relations. -/
theorem ends_visit_nodup (ht : v.tree.Built) (hs : Finished v.blueprint s) (he : v.Stands s e)
    (includeSelf : Bool) (x : σ) :
    Ends (v.visit (recording visitor.act) includeSelf e) (s, x, [])
      (fun _ t => (∀ d ∈ e :: t.2.2.map Prod.fst, v.Unshared t.1 d) →
        ((t.2.2.map Prod.fst).map Element.node).Nodup)
      fun _ t => (∀ d ∈ e :: t.2.2.map Prod.fst, v.Unshared t.1 d) →
        ((t.2.2.map Prod.fst).map Element.node).Nodup := by
  have hbelow : ∀ {t' : Schema × σ × Record}, v.Strolled e (s, x, []) t' →
      (∀ d ∈ e :: t'.2.2.map Prod.fst, v.Unshared t'.1 d) →
        ((t'.2.2.map Prod.fst).map Element.node).Nodup := by
    intro t' h hunshared
    obtain ⟨row, hoffspring, -, ds, htour, hds⟩ := h
    rw [List.map_nil, List.nil_append] at hds
    obtain ⟨hself, hrest⟩ := List.forall_mem_cons.mp hunshared
    rw [hds] at hrest ⊢
    exact htour.nodup ht (hoffspring.apart_nodes ht hself) hrest
  have hwith : ∀ {t' : Schema × σ × Record}, v.Toured [e] (s, x, []) t' →
      (∀ d ∈ e :: t'.2.2.map Prod.fst, v.Unshared t'.1 d) →
        ((t'.2.2.map Prod.fst).map Element.node).Nodup := by
    intro t' h hunshared
    obtain ⟨-, ds, htour, hds⟩ := h
    rw [List.map_nil, List.nil_append] at hds
    have hrest := (List.forall_mem_cons.mp hunshared).2
    rw [hds] at hrest ⊢
    exact htour.nodup ht (List.pairwise_singleton _ _) hrest
  cases includeSelf with
  | false =>
      exact (ends_walk_strolled ht _ hs he).mono (fun _ _ h => hbelow h) fun _ _ h => hbelow h
  | true =>
      exact (ends_element_toured hs he fun _ hs' he' => ends_walk_strolled ht _ hs' he').mono
        (fun _ _ h => hwith h) fun _ _ h => hwith h

end Walks

end View

/--
**What is exposed twice is behind two relations.**  If all children of an element of a tree that was
built can be got, they are different nodes exactly if no child of its node, of those that are kept,
is behind two of its relations.  A child is only behind two relations if one of them has found it by
its kind, for want of a label, or if both go back to one name because of renames.  A walk shows
different nodes, whatever its visitor asks for, however it ends and whether or not it begins with
the element itself, if no child of an element that it shows, or of that one, is behind two
relations.
-/
theorem allChildren_distinct_iff (v : View) (ht : v.tree.Built) (before : List Call) {e : Element}
    (he : v.Stands (v.blueprint.session before).schema e) :
    (∀ ds s, v.allChildren e (v.blueprint.session before).schema = .ok ds s →
      ((ds.map Element.node).Nodup ↔ v.Unshared (v.blueprint.session before).schema e)) ∧
    ((v.blueprint.session before).schema.relations e.entity).Pairwise
      (fun r r' => ∀ i, v.Shared e r r' i → v.Overlaps e r r' i) ∧
    ∀ (σ : Type) (visitor : Visitor v.blueprint σ) (includeSelf : Bool) (x : σ),
      Ends (v.visit (View.recording visitor.act) includeSelf e)
        ((v.blueprint.session before).schema, x, [])
        (fun _ t => (∀ d ∈ e :: t.2.2.map Prod.fst, v.Unshared t.1 d) →
          ((t.2.2.map Prod.fst).map Element.node).Nodup)
        fun _ t => (∀ d ∈ e :: t.2.2.map Prod.fst, v.Unshared t.1 d) →
          ((t.2.2.map Prod.fst).map Element.node).Nodup := by
  have hs := (Session.Holds.session v.blueprint before).finished
  obtain ⟨n, hn⟩ : ∃ n, v.tree.node? e.node = some n := he.imp fun _ h => h.1
  refine ⟨?_, ?_, ?_⟩
  · intro ds s h
    exact ((View.ends_allChildren_gathered e _).of_ok h).nodup_iff ht hn
  · refine (Schema.pairwise_relations _ _).imp ?_
    intro r r' hname i h
    exact h.overlaps ht hn hname
  · intro σ visitor includeSelf x
    exact View.ends_visit_nodup ht hs he includeSelf x

namespace View

/-- A body has expressions, and a call, which is an expression. -/
def bodies : Blueprint where
  grammar := .ofParts "bodies" none
    [⟨"Body", none, [.ofItem (.node "Expr") .multi, .ofItem (.node "Call") .single]⟩,
     ⟨"Expr", none, []⟩, ⟨"Call", some "Expr", []⟩]
    []
  config := Config.standard
  ignoredTypes := []
  known := by decide +kernel

/-- A body of one call. -/
def bodyEvents : List Event := [.start "Body", .start "Call", .finish, .finish]

def bodyView : View := ⟨bodies, 0, (Builder.fed bodyEvents).tree⟩

def body : Element := ⟨0, ⟨0⟩, ⟨0⟩, []⟩

/-- The call in it. -/
def bodyCall : Element := ⟨0, ⟨1⟩, ⟨2⟩, [body.placement]⟩

theorem built_bodyView : bodyView.tree.Built := ⟨bodyEvents, by decide +kernel⟩

/-- The call in a body comes up twice, so it is behind two relations. -/
theorem allChildren_distinct_iff_body :
    bodyView.tree.Built ∧
      bodyView.Stands (bodies.session [.root bodyView.document]).schema body ∧
      ¬ bodyView.Unshared (bodies.session [.root bodyView.document]).schema body := by
  have hstands : bodyView.Stands (bodies.session [.root bodyView.document]).schema body :=
    ⟨(bodyView.tree.node? ⟨0⟩).get (by decide +kernel), by decide +kernel, by decide +kernel⟩
  have hall : bodyView.allChildren body (bodies.session [.root bodyView.document]).schema =
      .ok [bodyCall, bodyCall] (bodies.session [.root bodyView.document]).schema := by
    decide +kernel
  obtain ⟨hdistinct, -⟩ := allChildren_distinct_iff bodyView built_bodyView _ hstands
  refine ⟨built_bodyView, hstands, fun hunshared => ?_⟩
  exact absurd ((hdistinct _ _ hall).mpr hunshared) (by decide)

/-- No child is bound to more than one label, and yet the call in a body comes up twice among its
children, as an expression and as a call. -/
theorem exposed_twice :
    bodyView.tree.Built ∧
      (∀ i n c name name', bodyView.tree.node? i = some n → n.Binds name c → n.Binds name' c →
        name = name') ∧
      ∃ s s', bodyView.root (bodies.session []).schema = .ok body s ∧
        bodyView.allChildren body s = .ok [bodyCall, bodyCall] s' := by
  refine ⟨built_bodyView, fun i n c name name' => built_bodyView.binds_unique,
    (bodies.session [.root bodyView.document]).schema,
    (bodies.session [.root bodyView.document]).schema, ?_, ?_⟩
  · decide +kernel
  · decide +kernel

end View

end TreeSchema
