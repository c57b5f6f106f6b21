/-
What an element has above it.

An element does not look at the parent of its node.  What it has above it is what it was reached
through: the element that gave it, the one that gave that, and so on up to the root.  On the way
from an element to one below it a child of the node is taken and transparent nodes are passed, each
for a child of its own.  In a tree that was built a node is among the children of its parent and
of no other, so the way back up along the parents is the same way, and the elements above are what
it comes to between the transparent nodes.

`Below` is what each getter gives, and `Traced` is what then holds of every element that is
reached, by induction on how it was reached.
-/
import Mathlib.Data.List.Find
import TreeSchema.Proofs.Permanence
import TreeSchema.Proofs.Sight

namespace TreeSchema

/-- The parent of a node. -/
def Tree.parent? (t : Tree) (i : NodeId) : Option NodeId := (t.node? i).bind Node.parent

namespace Tree

variable {t : Tree} {i : NodeId} {n : Node}

theorem Built.parent?_root (h : t.Built) (hroot : t.root = some i) : t.parent? i = none := by
  obtain ⟨events, hevents⟩ := h
  have hcounted := Builder.counted_fed events
  obtain ⟨-, hextra, rfl⟩ := Builder.toTree_eq_ok_iff.mp hevents
  rw [Builder.fed] at hcounted
  obtain ⟨n, hn⟩ := node?_of_lt (hcounted.linked.ordered.tree.root hroot)
  rw [parent?, hn, Option.bind_some]
  exact (hcounted.parent_eq_none_iff (hcounted.extra.mp hextra) hn).mpr hroot

theorem Linked.parent?_child {j : NodeId} (h : t.Linked) (hn : t.node? i = some n)
    (hj : .node j ∈ n.children) : t.parent? j = some i := by
  obtain ⟨m, hm, hparent⟩ := h.child hn hj
  rw [parent?, hm, Option.bind_some, hparent]

end Tree

namespace View

variable {v : View} {s s' : Schema} {d e : Element} {i j : NodeId}

/-- Whether a node can be an element: it is in the tree and not transparent. -/
def isPlain (v : View) (i : NodeId) : Bool :=
  (v.tree.node? i).any fun n => !v.blueprint.config.isTransparent n.kind

/-- Whether the entity of a node is `entity` or derives from it. -/
def derives (v : View) (s : Schema) (entity : EntityId) (i : NodeId) : Bool :=
  ((v.tree.node? i).bind fun n => s.idOf? n.kind).any fun id => entity ∈ s.ancestry id

/-! ### Passing transparent nodes on the way up -/

/-- The way up from the node that is seen in the place of another comes to the same nodes, but for
transparent ones. -/
theorem exists_trail_of_elide (hl : v.tree.Linked) (h : v.blueprint.elide v.tree i = .ok j)
    {ups : List NodeId} (hups : Trail v.tree.parent? i ups) :
    v.isPlain j = true ∧ ∃ ups', Trail v.tree.parent? j ups' ∧
      ups'.filter v.isPlain = ups.filter v.isPlain := by
  obtain ⟨hpath, n, hn, hplain⟩ := Blueprint.elide_eq_ok_iff.mp h
  clear h
  refine ⟨by simp [isPlain, hn, Config.isTransparent, hplain], ?_⟩
  induction hpath using Relation.ReflTransGen.head_induction_on generalizing ups with
  | refl => exact ⟨ups, hups, rfl⟩
  | @head i k hk _ ih =>
      obtain ⟨m, hm, htransparent, hstand⟩ := Blueprint.standIn?_eq_some_iff.mp hk
      have hparent := hl.parent?_child hm (Blueprint.mem_of_standIn hstand)
      obtain ⟨ups', hups', hfilter⟩ := ih (.step hparent hups)
      refine ⟨ups', hups', hfilter.trans (List.filter_cons_of_neg ?_)⟩
      simp [isPlain, hm, Config.isTransparent, htransparent]

/-! ### What the getters give -/

/-- An entity that is there is that of the kind of a node from then on. -/
theorem Stands.later (he : v.Stands s e) (h : s.Extends s') : v.Stands s' e := by
  obtain ⟨n, hn, hid⟩ := he
  exact ⟨n, hn, h.idOf? hid⟩

/-- An element below another has that one above it, and is seen in the place of a child. -/
structure Below (v : View) (s : Schema) (e d : Element) : Prop where
  above : d.above = e.placement :: e.above
  stands : v.Stands s d
  child : ∃ n i, v.tree.node? e.node = some n ∧ .node i ∈ n.children ∧
    v.blueprint.elide v.tree i = .ok d.node

theorem Below.later (h : v.Below s e d) (hs : s.Extends s') : v.Below s' e d :=
  { h with stands := h.stands.later hs }

theorem ends_element_stands (hs : Finished v.blueprint s) (i : NodeId) (above : List Placement) :
    Ends (v.element i above) s
      (fun d s' => Evolves v.blueprint s s' ∧ d.above = above ∧ v.Stands s' d ∧
        v.blueprint.elide v.tree i = .ok d.node) fun _ _ => True := by
  refine Ends.bind_lift (fun j hj => Ends.bind_lift (fun kind hkind => ?_) fun _ _ => trivial)
    fun _ _ => trivial
  obtain ⟨n, hn, rfl⟩ := map_eq_ok_iff.mp hkind
  rw [Tree.node_eq_ok_iff] at hn
  refine Ends.bind ((hs.ends_entityId n.kind).mono (fun _ _ h => h) fun _ _ _ => trivial) ?_
  intro id s' h
  exact Ends.pure ⟨⟨h.1, h.2.1⟩, rfl, ⟨n, hn, h.2.2⟩, hj⟩

theorem mem_children_of_filling (ht : v.tree.Built) {n : Node}
    (hn : v.tree.node? e.node = some n) {name : String} {x : Filling}
    (hx : v.filling e name = .ok x) {c : Child} (hc : c ∈ x.toList) : c ∈ n.children := by
  obtain ⟨m, hm, hsub⟩ := Blueprint.filling_sublist ht hx
  obtain rfl := Option.some.inj (hn.symm.trans hm)
  exact hsub.subset hc

section Getters

variable {n : Node} (hs : Finished v.blueprint s) (hn : v.tree.node? e.node = some n)

include hs hn

theorem ends_childElement_below (name : String) {c : Child} (hc : c ∈ n.children) :
    Ends (v.childElement e name c) s
      (fun x s' => Evolves v.blueprint s s' ∧ ∀ d ∈ x, v.Below s' e d) fun _ _ => True := by
  refine Ends.bind_lift (fun i hi => Ends.bind_lift (fun kept _ => ?_) fun _ _ => trivial)
    fun _ _ => trivial
  cases c with
  | token x =>
      obtain ⟨_, -, hi⟩ := bind_eq_ok_iff.mp hi
      cases hi
  | node j =>
      obtain rfl : j = i := by cases hi; rfl
      cases kept with
      | none => exact Ends.pure ⟨.refl hs, by simp⟩
      | some _ =>
          refine Ends.map ((ends_element_stands hs j (e.placement :: e.above)).imp ?_)
          rintro d s' ⟨hevolves, habove, hstands, hseen⟩
          refine ⟨hevolves, ?_⟩
          intro x hx
          obtain rfl := Option.some.inj hx
          exact ⟨habove, hstands, n, j, hn, hc, hseen⟩

variable (ht : v.tree.Built)

include ht

theorem ends_child?_below (name : String) :
    Ends (v.child? e name) s
      (fun x s' => Evolves v.blueprint s s' ∧ ∀ d ∈ x, v.Below s' e d) fun _ _ => True := by
  refine Ends.bind_get (Ends.bind_lift (fun r _ => Ends.bind_lift (fun child hchild => ?_)
    fun _ _ => trivial) fun _ _ => trivial)
  cases child with
  | none => exact Ends.pure ⟨.refl hs, by simp⟩
  | some c =>
      have hc : c ∈ n.children :=
        mem_children_of_filling ht hn (fillingOne_eq_ok hchild) (by simp [Filling.toList])
      exact ends_childElement_below hs hn r.name hc

theorem ends_children_below (name : String) :
    Ends (v.children e name) s
      (fun xs s' => Evolves v.blueprint s s' ∧ ∀ d ∈ xs, v.Below s' e d) fun _ _ => True := by
  refine Ends.bind_get (Ends.bind_lift (fun r _ => Ends.bind_lift (fun cs hcs => ?_)
    fun _ _ => trivial) fun _ _ => trivial)
  refine (Ends.filterMapM_lasting (I := Evolves v.blueprint s) (p := fun d s' => v.Below s' e d)
    (.refl hs) fun c hc s' hs' => ?_).imp fun xs s' h => ⟨h.1, h.2.2⟩
  have hmem : c ∈ n.children := mem_children_of_filling ht hn (fillingMany_eq_ok hcs) hc
  refine (ends_childElement_below hs'.finished hn r.name hmem).imp fun x s'' hx => ?_
  exact ⟨hs'.trans hx.1, fun d hd => hd.later hx.1.extends_, hx.2⟩

theorem ends_related_below (r : Relation) :
    Ends (v.related e r) s
      (fun xs s' => Evolves v.blueprint s s' ∧ ∀ d ∈ xs, v.Below s' e d) fun _ _ => True := by
  unfold related
  by_cases hone : r.multiplicity.isSingle = true
  · rw [if_pos hone]
    refine Ends.map ((ends_child?_below hs hn ht r.name).imp fun x s' hx => ?_)
    exact ⟨hx.1, fun d hd => hx.2 d (Option.mem_toList.mp hd)⟩
  · rw [if_neg hone]
    exact ends_children_below hs hn ht r.name

theorem ends_allChildren_below :
    Ends (v.allChildren e) s
      (fun xs s' => Evolves v.blueprint s s' ∧ ∀ d ∈ xs, v.Below s' e d) fun _ _ => True := by
  refine Ends.bind_get ?_
  refine (Ends.flatMapM_lasting (I := Evolves v.blueprint s) (p := fun d s' => v.Below s' e d)
    (.refl hs) fun r _ s' hs' => ?_).imp fun xs s' h => ⟨h.1, h.2.2⟩
  refine (ends_related_below hs'.finished hn ht r).imp fun xs s'' hxs => ?_
  exact ⟨hs'.trans hxs.1, fun d hd => hd.later hxs.1.extends_, hxs.2⟩

theorem ends_firstChild?_below :
    Ends (v.firstChild? e) s
      (fun x s' => Evolves v.blueprint s s' ∧ ∀ d ∈ x, v.Below s' e d) fun _ _ => True := by
  refine Ends.map ((ends_allChildren_below hs hn ht).imp fun xs s' hxs => ⟨hxs.1, ?_⟩)
  intro d hd
  exact hxs.2 d (List.mem_of_head? hd)

end Getters

/-! ### Elements that are reached -/

/-- An element that a mapper gave out for a document in the course of some calls: the root, or one
that a getter gave for an element that had been reached before. -/
inductive Reached (v : View) : List Call → Element → Prop
  | root {calls : List Call} {e : Element} {s : Schema}
      (answer : v.root (v.blueprint.session calls).schema = .ok e s) :
      Reached v (calls ++ [.root v.document]) e
  | child {calls : List Call} {e d : Element} {name : String} {s : Schema}
      (before : Reached v calls e)
      (answer : v.child? e name (v.blueprint.session calls).schema = .ok (some d) s) :
      Reached v (calls ++ [.child v.document e name]) d
  | children {calls : List Call} {e d : Element} {name : String} {ds : List Element} {s : Schema}
      (before : Reached v calls e)
      (answer : v.children e name (v.blueprint.session calls).schema = .ok ds s) (mem : d ∈ ds) :
      Reached v (calls ++ [.children v.document e name]) d
  | allChildren {calls : List Call} {e d : Element} {ds : List Element} {s : Schema}
      (before : Reached v calls e)
      (answer : v.allChildren e (v.blueprint.session calls).schema = .ok ds s) (mem : d ∈ ds) :
      Reached v (calls ++ [.allChildren v.document e]) d
  | firstChild {calls : List Call} {e d : Element} {s : Schema} (before : Reached v calls e)
      (answer : v.firstChild? e (v.blueprint.session calls).schema = .ok (some d) s) :
      Reached v (calls ++ [.firstChild v.document e]) d
  | later {calls : List Call} {e : Element} (call : Call) (before : Reached v calls e) :
      Reached v (calls ++ [call]) e

/-- What holds of every element that is reached: it and all above it have the entities of their
kinds, and what is above it is what the way up from its node comes to, but for transparent nodes. -/
structure Traced (v : View) (s : Schema) (e : Element) : Prop where
  plain : v.isPlain e.node = true
  stands : v.Stands s e
  above : ∀ p ∈ e.above, v.Stands s ⟨p.document, p.node, p.entity, []⟩
  trail : ∃ ups, Trail v.tree.parent? e.node ups ∧
    e.above.map Placement.node = ups.filter v.isPlain

theorem Traced.later (h : v.Traced s e) (hs : s.Extends s') : v.Traced s' e :=
  { h with
    stands := h.stands.later hs
    above := fun p hp => (h.above p hp).later hs }

/-- What a getter gives for an element is traced as that element is. -/
theorem Traced.below (he : v.Traced s e) (hl : v.tree.Linked) (h : v.Below s e d) :
    v.Traced s d := by
  obtain ⟨n, i, hn, hi, hseen⟩ := h.child
  obtain ⟨ups, hups, habove⟩ := he.trail
  obtain ⟨hplain, ups', hups', hfilter⟩ :=
    exists_trail_of_elide hl hseen (.step (hl.parent?_child hn hi) hups)
  refine ⟨hplain, h.stands, ?_, ups', hups', ?_⟩
  · rw [h.above]
    intro p hp
    rcases List.mem_cons.mp hp with rfl | hp
    · exact he.stands
    · exact he.above p hp
  · rw [h.above, List.map_cons, habove, hfilter, List.filter_cons_of_pos he.plain]
    rfl

theorem Traced.root (ht : v.tree.Built) (hs : Finished v.blueprint s) :
    Ends v.root s (fun e s' => Evolves v.blueprint s s' ∧ v.Traced s' e) fun _ _ => True := by
  unfold View.root
  cases hroot : v.tree.root with
  | none => exact Ends.throw trivial
  | some i =>
      refine (ends_element_stands hs i []).imp ?_
      rintro e s' ⟨hevolves, habove, hstands, hseen⟩
      obtain ⟨hplain, ups, hups, hfilter⟩ :=
        exists_trail_of_elide ht.linked hseen (.stop (ht.parent?_root hroot))
      refine ⟨hevolves, hplain, hstands, by simp [habove], ups, hups, ?_⟩
      rw [habove, hfilter]
      rfl

/-- The schema after one more call that succeeded is the one which that call left. -/
theorem schema_session_concat {b : Blueprint} {calls : List Call} {call : Call}
    {ids : List EntityId} (h : b.answer call (b.session calls).schema = .ok ids s) :
    (b.session (calls ++ [call])).schema = s := by
  rw [Blueprint.session, List.foldl_concat]
  show (b.call (b.session calls) call).schema = s
  rw [Blueprint.call, h]

theorem bind_pure_eq_ok {α β : Type} {x : Deriving α} {a : α} (h : x s = .ok a s') (g : α → β) :
    (x >>= fun a => pure (g a)) s = .ok (g a) s' := by
  simp [bind, EStateM.bind, h, pure, EStateM.pure]

/-- What a call gave for an element is traced after the call. -/
theorem Traced.answered {calls : List Call} {call : Call} {ids : List EntityId}
    (he : v.Traced (v.blueprint.session calls).schema e) (hl : v.tree.Linked)
    (hcall : v.blueprint.answer call (v.blueprint.session calls).schema = .ok ids s)
    (hevolves : Evolves v.blueprint (v.blueprint.session calls).schema s) (h : v.Below s e d) :
    v.Traced (v.blueprint.session (calls ++ [call])).schema d := by
  rw [schema_session_concat hcall]
  exact (he.later hevolves.extends_).below hl h

theorem Reached.traced (ht : v.tree.Built) {calls : List Call} (h : v.Reached calls e) :
    v.Traced (v.blueprint.session calls).schema e := by
  have hfinished : ∀ calls, Finished v.blueprint (v.blueprint.session calls).schema :=
    fun calls => (Session.Holds.session v.blueprint calls).finished
  have hnode : ∀ {calls e}, v.Traced (v.blueprint.session calls).schema e →
      ∃ n, v.tree.node? e.node = some n := fun h => h.stands.imp fun _ hn => hn.1
  induction h with
  | @root calls e s answer =>
      have hcall : v.blueprint.answer (.root v.document) (v.blueprint.session calls).schema =
          .ok [e.entity] s := bind_pure_eq_ok answer fun e => [e.entity]
      rw [schema_session_concat hcall]
      exact ((Traced.root ht (hfinished calls)).of_ok answer).2
  | @child calls e d name s _ answer ih =>
      obtain ⟨n, hn⟩ := hnode ih
      obtain ⟨hevolves, hbelow⟩ := (ends_child?_below (hfinished calls) hn ht name).of_ok answer
      exact ih.answered ht.linked
        (bind_pure_eq_ok answer fun x => x.toList.map Element.entity) hevolves (hbelow d rfl)
  | @children calls e d name ds s _ answer mem ih =>
      obtain ⟨n, hn⟩ := hnode ih
      obtain ⟨hevolves, hbelow⟩ := (ends_children_below (hfinished calls) hn ht name).of_ok answer
      exact ih.answered ht.linked
        (bind_pure_eq_ok answer fun xs => xs.map Element.entity) hevolves (hbelow d mem)
  | @allChildren calls e d ds s _ answer mem ih =>
      obtain ⟨n, hn⟩ := hnode ih
      obtain ⟨hevolves, hbelow⟩ := (ends_allChildren_below (hfinished calls) hn ht).of_ok answer
      exact ih.answered ht.linked
        (bind_pure_eq_ok answer fun xs => xs.map Element.entity) hevolves (hbelow d mem)
  | @firstChild calls e d s _ answer ih =>
      obtain ⟨n, hn⟩ := hnode ih
      obtain ⟨hevolves, hbelow⟩ := (ends_firstChild?_below (hfinished calls) hn ht).of_ok answer
      exact ih.answered ht.linked
        (bind_pure_eq_ok answer fun x => x.toList.map Element.entity) hevolves (hbelow d rfl)
  | @later calls e call _ ih =>
      have hholds := Session.Holds.session v.blueprint calls
      rw [Blueprint.session, List.foldl_concat]
      exact ih.later (hholds.call call).2

/-! ### Ancestors -/

theorem trail_ancestors (e : Element) : Trail Element.parent? e e.ancestors := by
  obtain ⟨document, node, entity, above⟩ := e
  induction above generalizing document node entity with
  | nil => exact .stop rfl
  | cons p ps ih => exact .step rfl (ih p.document p.node p.entity)

theorem map_placement_ancestors (e : Element) : e.ancestors.map Element.placement = e.above := by
  unfold Element.ancestors
  induction e.above with
  | nil => rfl
  | cons p ps ih => rw [Element.along, List.map_cons, ih]; rfl

theorem map_node_ancestors (e : Element) :
    e.ancestors.map Element.node = e.above.map Placement.node := by
  rw [← map_placement_ancestors e, List.map_map]
  rfl

theorem Traced.stands_of_mem (h : v.Traced s e) {a : Element} (ha : a ∈ e.ancestors) :
    v.Stands s a := by
  have hplace : a.placement ∈ e.above :=
    map_placement_ancestors e ▸ List.mem_map_of_mem ha
  exact h.above a.placement hplace

/-- Where an element has the entity of its kind, what derives from what can be read off its node. -/
theorem Stands.derives_eq (h : v.Stands s e) (entity : EntityId) :
    v.derives s entity e.node = decide (entity ∈ s.ancestry e.entity) := by
  obtain ⟨n, hn, hid⟩ := h
  simp [derives, hn, hid]

theorem Traced.findAncestor_eq (h : v.Traced s e) (entity : EntityId) :
    e.findAncestor s entity = e.ancestors.find? fun a => v.derives s entity a.node := by
  unfold Element.findAncestor
  refine List.find?_congr fun a ha => ?_
  exact ((h.stands_of_mem ha).derives_eq entity).symm

end View

/--
**The elements above are the nodes above that are not transparent.**  Let an element of a tree that
was built be reached from the root by any getters, with any other calls in between.  From its node
the parents lead up to the root, and the nodes of its chain of parents are those of them that are
not transparent, nearest first.  So at any later time the ancestor that is found for an entity is
the nearest of those whose entity is that one or derives from it, and none is found if there is
none.
-/
theorem reached_parents (v : View) (ht : v.tree.Built) {calls : List Call} {e : Element}
    (h : v.Reached calls e) :
    ∃ ups parents, Trail v.tree.parent? e.node ups ∧ Trail Element.parent? e parents ∧
      parents.map Element.node = ups.filter v.isPlain ∧
      ∀ later entity, e.findAncestor (v.blueprint.session (calls ++ later)).schema entity =
        parents.find? fun a =>
          v.derives (v.blueprint.session (calls ++ later)).schema entity a.node := by
  have htraced := h.traced ht
  obtain ⟨ups, hups, habove⟩ := htraced.trail
  refine ⟨ups, e.ancestors, hups, View.trail_ancestors e, ?_, fun later entity => ?_⟩
  · rw [View.map_node_ancestors, habove]
  · have hholds := Session.Holds.session v.blueprint calls
    rw [Blueprint.session, List.foldl_append]
    exact (htraced.later (hholds.foldl_call later).2).findAncestor_eq entity

namespace View

/-- The expression in the argument of the outer call, past the transparent node of the argument. -/
def argument : Element := ⟨0, ⟨3⟩, ⟨3⟩, [outerCall.placement, block.placement]⟩

/-- The call in that expression. -/
def innerCall : Element := ⟨0, ⟨4⟩, ⟨2⟩, [argument.placement, outerCall.placement, block.placement]⟩

/-- The calls that lead to it. -/
def innerCalls : List Call :=
  [.root callView.document, .children callView.document block "stmt",
    .children callView.document outerCall "arg", .child callView.document argument "call"]

/-- Above the inner call there are the expression, the outer call and the block. -/
theorem reached_parents_innerCall :
    callView.tree.Built ∧ callView.Reached innerCalls innerCall ∧
      callView.isPlain ⟨2⟩ = false ∧
      ∃ ups parents, Trail callView.tree.parent? ⟨4⟩ ups ∧
        Trail Element.parent? innerCall parents ∧
        parents.map Element.node = ups.filter callView.isPlain := by
  have hbuilt : callView.tree.Built := ⟨callEvents, by decide +kernel⟩
  have hroot : callView.root (calls.session []).schema =
      .ok block (calls.session (innerCalls.take 1)).schema := by decide +kernel
  have hcalls : callView.children block "stmt" (calls.session (innerCalls.take 1)).schema =
      .ok [outerCall] (calls.session (innerCalls.take 2)).schema := by decide +kernel
  have harg : callView.children outerCall "arg" (calls.session (innerCalls.take 2)).schema =
      .ok [argument] (calls.session (innerCalls.take 3)).schema := by decide +kernel
  have hinner : callView.child? argument "call" (calls.session (innerCalls.take 3)).schema =
      .ok (some innerCall) (calls.session innerCalls).schema := by decide +kernel
  have hreached : callView.Reached innerCalls innerCall :=
    .child (.children (.children (.root hroot) hcalls (by simp)) harg (by simp)) hinner
  obtain ⟨ups, parents, hups, hparents, hnodes, -⟩ := reached_parents callView hbuilt hreached
  exact ⟨hbuilt, hreached, by decide +kernel, ups, parents, hups, hparents, hnodes⟩

end View

end TreeSchema
