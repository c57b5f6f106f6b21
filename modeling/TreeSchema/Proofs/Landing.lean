/-
Where passing transparent nodes lands.

An element that is asked for at a transparent node is that of another node: the first one on the
way down that is not transparent, the way going from a transparent node to its only child, ignored
tokens apart.  In a tree in which all numbers can be followed and lead forward this way is the whole
story.  It ends, and either at a node with an entity of its own, which every node on the way is then
seen as, or at a transparent node that has no such child, which is an error.

The schema may grow when an element is asked for the first time.  That the same element is given
for the other nodes of the way after that is because the entity, once there, is found again.
-/
import TreeSchema.Proofs.Endless
import TreeSchema.Proofs.Reading
import TreeSchema.Proofs.Upward

namespace TreeSchema

namespace Blueprint

variable {b : Blueprint} {t : Tree} {n : Node} {i j k : NodeId}

/-! ### Giving way -/

/-- The children of a node that are not ignored tokens. -/
def counted (b : Blueprint) (t : Tree) (n : Node) : List Child :=
  n.children.filter fun c => ¬ b.IsIgnored t c

/-- A transparent node gives way to the one child of it that counts, if that is a node. -/
def GivesWay (b : Blueprint) (t : Tree) (i j : NodeId) : Prop :=
  ∃ n, t.node? i = some n ∧ n.kind ∈ b.config.transparent ∧ b.counted t n = [.node j]

/-- A transparent node of which the children that count are not one node. -/
def Stuck (b : Blueprint) (t : Tree) (i : NodeId) : Prop :=
  ∃ n, t.node? i = some n ∧ n.kind ∈ b.config.transparent ∧ ∀ j, b.counted t n ≠ [.node j]

theorem standIn_eq (ht : t.Ordered) (hn : t.node? i = some n) :
    b.standIn t n = match (b.counted t n).take 2 with
      | [.node j] => .ok j
      | [.token _] => .error (.terminalChild n.kind)
      | _ => .error (.childCount n.kind n.children.length) := by
  unfold standIn counted
  rw [takeRelevant_eq_ok 2 fun c hc => isRelevant_eq_ok ht hn hc]
  show (match (n.children.filter fun c => ¬ b.IsIgnored t c).take 2 with
    | [.node j] => Except.ok j
    | [.token _] => Except.error (Error.terminalChild n.kind)
    | _ => Except.error (Error.childCount n.kind n.children.length)) = _
  rfl

theorem standIn_eq_ok_iff (ht : t.Ordered) (hn : t.node? i = some n) :
    b.standIn t n = .ok j ↔ b.counted t n = [.node j] := by
  rw [standIn_eq ht hn]
  cases b.counted t n with
  | nil => simp
  | cons c cs =>
      cases cs with
      | nil => cases c <;> simp
      | cons d ds => simp

/-- If no node stands in for another then because its children do not fit. -/
theorem fault_of_standIn_of_ordered (ht : t.Ordered) (hn : t.node? i = some n) {e : Error}
    (h : b.standIn t n = .error e) : e.fault = .structuralMismatch := by
  rw [standIn_eq ht hn] at h
  split at h
  · cases h
  · cases h
    rfl
  · cases h
    rfl

theorem standIn?_eq_givesWay (ht : t.Ordered) : (b.standIn? t · = some ·) = b.GivesWay t := by
  funext i j
  rw [eq_iff_iff, standIn?_eq_some_iff]
  constructor
  · intro h
    obtain ⟨n, hn, htransparent, h⟩ := h
    exact ⟨n, hn, htransparent, (standIn_eq_ok_iff ht hn).mp h⟩
  · intro h
    obtain ⟨n, hn, htransparent, h⟩ := h
    exact ⟨n, hn, htransparent, (standIn_eq_ok_iff ht hn).mpr h⟩

theorem GivesWay.eq (h : b.GivesWay t i j) (h' : b.GivesWay t i k) : j = k := by
  obtain ⟨n, hn, -, hj⟩ := h
  obtain ⟨m, hm, -, hk⟩ := h'
  obtain rfl := Option.some.inj (hn.symm.trans hm)
  simpa using hj.symm.trans hk

/-! ### The end of the way -/

/-- The node that is seen in the place of another is where giving way ends. -/
theorem elide_eq_ok_iff_givesWay (ht : t.Ordered) :
    b.elide t i = .ok j ↔ Relation.ReflTransGen (b.GivesWay t) i j ∧
      ∃ n, t.node? j = some n ∧ n.kind ∉ b.config.transparent := by
  rw [elide_eq_ok_iff, standIn?_eq_givesWay ht]

/-- The nodes on the way to the one that is seen are all seen as that one. -/
theorem elide_of_givesWay (ht : t.Ordered) (hpath : Relation.ReflTransGen (b.GivesWay t) i k)
    (h : b.elide t i = .ok j) : b.elide t k = .ok j := by
  induction hpath with
  | refl => exact h
  | @tail k l _ hkl ih =>
      obtain ⟨hrest, n, hn, hplain⟩ := (elide_eq_ok_iff_givesWay ht).mp ih
      rcases hrest.cases_head with rfl | ⟨l', hkl', hrest⟩
      · -- a node that gives way is transparent, so it is not the one that is seen
        obtain ⟨m, hm, htransparent, -⟩ := hkl
        obtain rfl := Option.some.inj (hn.symm.trans hm)
        exact absurd htransparent hplain
      · obtain rfl := hkl.eq hkl'
        exact (elide_eq_ok_iff_givesWay ht).mpr ⟨hrest, n, hn, hplain⟩

theorem node?_of_givesWay (ht : t.Ordered) (hi : i.index < t.nodes.size)
    (hpath : Relation.ReflTransGen (b.GivesWay t) i j) : ∃ n, t.node? j = some n := by
  induction hpath with
  | refl => exact Tree.node?_of_lt hi
  | tail _ hstep _ =>
      obtain ⟨n, hn, htransparent, hcounted⟩ := hstep
      have hchild := mem_of_standIn ((standIn_eq_ok_iff ht hn).mpr hcounted)
      exact Tree.node?_of_lt (ht.child hn hchild).2

/-- From every node there is a way to one that is seen, or to one where the way gets stuck. -/
theorem exists_end (ht : t.Ordered) (hi : i.index < t.nodes.size) :
    ∃ j, Relation.ReflTransGen (b.GivesWay t) i j ∧
      (b.elide t i = .ok j ∨
        b.Stuck t j ∧ ∃ e, b.elide t i = .error e ∧ e.fault = .structuralMismatch) := by
  obtain ⟨l, hl⟩ := exists_trail_iff.mpr (ht.not_comesBack (b := b) i)
  have hpath := hl.reflTransGen_of_mem List.getLastD_mem_cons
  rw [standIn?_eq_givesWay ht] at hpath
  obtain ⟨n, hn⟩ := node?_of_givesWay ht hi hpath
  refine ⟨l.getLastD i, hpath, ?_⟩
  by_cases htransparent : n.kind ∈ b.config.transparent
  · have hstuck : ∀ j, b.counted t n ≠ [.node j] := by
      intro j hcounted
      have hstand := standIn?_eq_some_iff.mpr
        ⟨n, hn, htransparent, (standIn_eq_ok_iff ht hn).mpr hcounted⟩
      rw [hl.getLastD_eq_none] at hstand
      cases hstand
    obtain ⟨e, he⟩ : ∃ e, b.standIn t n = .error e := by
      cases h : b.standIn t n with
      | error e => exact ⟨e, rfl⟩
      | ok j => exact absurd ((standIn_eq_ok_iff ht hn).mp h) (hstuck j)
    refine .inr ⟨⟨n, hn, htransparent, hstuck⟩, e, ?_, fault_of_standIn_of_ordered ht hn he⟩
    rw [elide, elide_of_trail hl (Nat.le_refl _), arrive, Tree.node_eq_ok_iff.mpr hn]
    simp [bind, Except.bind, Config.isTransparent, htransparent, he]
  · exact .inl ((elide_eq_ok_iff_givesWay ht).mpr ⟨hpath, n, hn, htransparent⟩)

/-- No node is seen in the place of another exactly if the way gets stuck. -/
theorem elide_eq_error_iff (ht : t.Ordered) (hi : i.index < t.nodes.size) :
    (∃ e, b.elide t i = .error e) ↔
      ∃ j, Relation.ReflTransGen (b.GivesWay t) i j ∧ b.Stuck t j := by
  constructor
  · intro h
    obtain ⟨e, he⟩ := h
    obtain ⟨j, hpath, hok | ⟨hstuck, -⟩⟩ := exists_end (b := b) ht hi
    · rw [hok] at he
      cases he
    · exact ⟨j, hpath, hstuck⟩
  · intro h
    obtain ⟨j, hpath, n, hn, htransparent, hstuck⟩ := h
    cases h : b.elide t i with
    | error e => exact ⟨e, rfl⟩
    | ok k =>
        obtain ⟨hrest, m, hm, hplain⟩ :=
          (elide_eq_ok_iff_givesWay ht).mp (elide_of_givesWay ht hpath h)
        rcases hrest.cases_head with rfl | ⟨l, ⟨m, hm, -, hcounted⟩, -⟩
        · obtain rfl := Option.some.inj (hn.symm.trans hm)
          exact absurd htransparent hplain
        · obtain rfl := Option.some.inj (hn.symm.trans hm)
          exact absurd hcounted (hstuck l)

theorem fault_of_elide_of_ordered (ht : t.Ordered) (hi : i.index < t.nodes.size) {e : Error}
    (h : b.elide t i = .error e) : e.fault = .structuralMismatch := by
  obtain ⟨j, -, hok | ⟨-, e', he', hfault⟩⟩ := exists_end (b := b) ht hi
  · rw [hok] at h
    cases h
  · rw [h] at he'
    cases he'
    exact hfault

end Blueprint

namespace View

variable {v : View} {s s' : Schema} {e : Element} {i j : NodeId} {above : List Placement}

/-! ### Elements -/

/-- An element is that of the node that is seen, with the entity of its kind. -/
structure Lands (v : View) (i : NodeId) (above : List Placement) (s : Schema) (e : Element) :
    Prop where
  seen : v.blueprint.elide v.tree i = .ok e.node
  stands : v.Stands s e
  document : e.document = v.document.number
  above : e.above = above

theorem ends_element_lands (hs : Finished v.blueprint s) (i : NodeId) (above : List Placement) :
    Ends (v.element i above) s
      (fun e s' => Evolves v.blueprint s s' ∧ v.Lands i above s' e)
      fun e _ => v.blueprint.elide v.tree i = .error e ∨
        (∃ j, v.blueprint.elide v.tree i = .ok j) ∧ e.fault ≠ .structuralMismatch := by
  refine Ends.bind_lift (fun j hj => ?_) fun e he => .inl he
  obtain ⟨-, n, hn, -⟩ := Blueprint.elide_eq_ok_iff.mp hj
  rw [Tree.kind_eq_ok hn]
  refine Ends.bind_ok (Ends.bind ((hs.ends_entityId n.kind).mono (fun _ _ h => h) ?_) ?_)
  · intro e s' he
    refine .inr ⟨⟨j, hj⟩, ?_⟩
    rcases he.2 with hfault | rfl
    · simp [hfault]
    · simp [Error.fault]
  · intro id s' h
    exact Ends.pure ⟨⟨h.1, h.2.1⟩, hj, ⟨n, hn, h.2.2⟩, rfl, rfl⟩

theorem element_eq_error {err : Error} (h : v.blueprint.elide v.tree i = .error err) :
    v.element i above s = .error err s := by
  unfold element
  rw [h]
  rfl

/-- Where the entity of the node that is seen is there, the element is found, and nothing is added
to the schema. -/
theorem Lands.element_eq_ok (h : v.Lands i above s e) (hs : Finished v.blueprint s) :
    v.element i above s = .ok e s := by
  obtain ⟨n, hn, hid⟩ := h.stands
  have hentity : (v.blueprint.entityId n.kind >>= fun entity =>
      pure ⟨v.document.number, e.node, entity, above⟩) s = .ok e s := by
    rw [bind_pure_eq_ok (hs.entityId_eq_ok hid), ← h.document, ← h.above]
  unfold element
  rw [h.seen]
  show (liftExcept (v.tree.kind e.node) >>= fun kind => v.blueprint.entityId kind >>= _) s = _
  rw [Tree.kind_eq_ok hn]
  exact hentity

/-- The other nodes on the way land on the same element, in every schema that comes later. -/
theorem Lands.along (h : v.Lands i above s e) (ht : v.tree.Ordered)
    (hpath : Relation.ReflTransGen (v.blueprint.GivesWay v.tree) i j) (hs : s.Extends s') :
    v.Lands j above s' e where
  seen := Blueprint.elide_of_givesWay ht hpath h.seen
  stands := h.stands.later hs
  document := h.document
  above := h.above

end View

/-- What is above an element that is reached from another, or from none. -/
def rowFrom : Option Element → List Placement
  | none => []
  | some p => p.placement :: p.above

theorem Element.parent?_eq {e : Element} {p : Option Element} (habove : e.above = rowFrom p) :
    e.parent? = p := by
  unfold Element.parent? Element.ancestors
  rw [habove]
  cases p <;> rfl

/--
**An element lands on the first node that is not transparent.**  Let the numbers in a tree be such
that they can be followed and lead forward, and let an element be asked for at a node of it, reached
from another element or from none, after any calls.  If it is given then its node is where giving
way from the node asked for leads to; the kind of that node is none of those without entities, and
its entity is that of exactly this kind; and it has the parent that it was asked for with.  From
then on, whatever else is asked, each node on the way gives the same element and leaves the schema
alone.  A structural mismatch is reported exactly if the way comes to a transparent node whose
children, ignored tokens apart, are not one node.
-/
theorem element_lands (v : View) (ht : v.tree.Ordered) (before : List Call) {i : NodeId}
    (hi : i.index < v.tree.nodes.size) (p : Option Element) :
    (∀ e s, v.element i (rowFrom p) (v.blueprint.session before).schema = .ok e s →
      Relation.ReflTransGen (v.blueprint.GivesWay v.tree) i e.node ∧
      (∃ n x, v.tree.node? e.node = some n ∧ s.entity? e.entity = some x ∧ x.kind = n.kind ∧
        n.kind ∉ v.blueprint.config.transparent ∧ n.kind ∉ v.blueprint.config.flattened ∧
        n.kind ∉ v.blueprint.config.dropped) ∧
      e.above = rowFrom p ∧ e.parent? = p ∧
      ∀ j, Relation.ReflTransGen (v.blueprint.GivesWay v.tree) i j → ∀ later s',
        (v.blueprint.session (before ++ .element v.document i (rowFrom p) :: later)).schema = s' →
        v.element j (rowFrom p) s' = .ok e s') ∧
    ((∃ e s, v.element i (rowFrom p) (v.blueprint.session before).schema = .error e s ∧
        e.fault = .structuralMismatch) ↔
      ∃ j, Relation.ReflTransGen (v.blueprint.GivesWay v.tree) i j ∧
        v.blueprint.Stuck v.tree j) := by
  have hfinished := (Session.Holds.session v.blueprint before).finished
  have hends := View.ends_element_lands hfinished i (rowFrom p)
  refine ⟨fun e s h => ?_, ?_⟩
  · obtain ⟨hevolves, hlands⟩ := hends.of_ok h
    obtain ⟨n, hn, hid⟩ := hlands.stands
    obtain ⟨x, hx, hkind⟩ := hevolves.finished.consistent.idOf?_eq_some_iff.mp hid
    refine ⟨((Blueprint.elide_eq_ok_iff_givesWay ht).mp hlands.seen).1,
      ⟨n, x, hn, hx, hkind, hkind ▸ hevolves.finished.consistent.mappable hx⟩, hlands.above,
      Element.parent?_eq hlands.above, ?_⟩
    intro j hpath later s' hs'
    have hcall : v.blueprint.answer (.element v.document i (rowFrom p))
        (v.blueprint.session before).schema = .ok [e.entity] s :=
      View.bind_pure_eq_ok h fun e => [e.entity]
    have hextends := extends_session_append v.blueprint
      (before ++ [.element v.document i (rowFrom p)]) later
    rw [View.schema_session_concat hcall, List.append_assoc] at hextends
    have hholds := Session.Holds.session v.blueprint
      (before ++ .element v.document i (rowFrom p) :: later)
    subst hs'
    exact (hlands.along ht hpath hextends).element_eq_ok hholds.finished
  · rw [← Blueprint.elide_eq_error_iff ht hi]
    constructor
    · intro h
      obtain ⟨e, s, h, hfault⟩ := h
      rcases hends.of_error h with he | ⟨-, hother⟩
      · exact ⟨e, he⟩
      · exact absurd hfault hother
    · intro h
      obtain ⟨e, he⟩ := h
      exact ⟨e, _, View.element_eq_error he, Blueprint.fault_of_elide_of_ordered ht hi he⟩

namespace View

/-- The argument of the outer call gives way to the expression in it, in spite of the comma, and
the expression is then seen as the same element. -/
theorem element_lands_argument :
    callView.tree.Ordered ∧ calls.GivesWay callView.tree ⟨2⟩ ⟨3⟩ ∧
      argument.parent? = some outerCall ∧
      ∃ s, callView.element ⟨2⟩ (rowFrom (some outerCall))
          (calls.session (innerCalls.take 2)).schema = .ok argument s ∧
        callView.element ⟨3⟩ (rowFrom (some outerCall)) s = .ok argument s := by
  have hbuilt : callView.tree.Built := ⟨callEvents, by decide +kernel⟩
  have hordered := hbuilt.ordered
  have hasked : callView.element ⟨2⟩ (rowFrom (some outerCall))
      (calls.session (innerCalls.take 2)).schema
        = .ok argument (calls.session (innerCalls.take 3)).schema := by decide +kernel
  have hway : calls.GivesWay callView.tree ⟨2⟩ ⟨3⟩ :=
    ⟨_, rfl, by decide +kernel, by decide +kernel⟩
  obtain ⟨hlands, -⟩ := element_lands callView hordered (innerCalls.take 2) (i := ⟨2⟩)
    (by decide +kernel) (some outerCall)
  obtain ⟨-, -, -, hparent, hagain⟩ := hlands _ _ hasked
  have hafter : (calls.session (innerCalls.take 2 ++
      [.element callView.document ⟨2⟩ (rowFrom (some outerCall))])).schema
        = (calls.session (innerCalls.take 3)).schema := by decide +kernel
  exact ⟨hordered, hway, hparent, _, hasked,
    hagain ⟨3⟩ (.single hway) [] _ hafter⟩

end View

end TreeSchema
