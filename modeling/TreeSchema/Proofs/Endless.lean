/-
Walks without an end.

In a tree that was built children come after their parents, so passing transparent nodes leads to
higher numbers and soon ends.  A tree that was read from a text is taken as it is, and in such a
tree a transparent node may be below itself.  That is the one case in which there is no node to be
seen: as many steps as there are nodes decide every other walk, and no number of steps is enough
for this one.
-/
import TreeSchema.Proofs.Arena
import TreeSchema.Proofs.Passing
import TreeSchema.Proofs.Permanence

namespace TreeSchema

/-! ### Which walks end -/

/-- Where children come after their parents, no node is come back to. -/
theorem Tree.Ordered.not_comesBack {b : Blueprint} {t : Tree} (ht : t.Ordered) (i : NodeId) :
    ¬ b.ComesBack t i := by
  have hstep : ∀ {i j}, b.standIn? t i = some j → i.index < j.index := by
    intro i j h
    obtain ⟨n, hn, -, hj⟩ := Blueprint.standIn?_eq_some_iff.mp h
    exact (ht.child hn (Blueprint.mem_of_standIn hj)).1
  rintro ⟨j, -, hcycle⟩
  have hlt : ∀ {k}, Relation.TransGen (b.standIn? t · = some ·) j k → j.index < k.index := by
    intro k hk
    induction hk with
    | single h => exact hstep h
    | tail _ h ih => exact Nat.lt_trans ih (hstep h)
  exact Nat.lt_irrefl _ (hlt hcycle)

namespace Blueprint

variable {b : Blueprint} {t : Tree} {i : NodeId}

/-- A walk that comes back does not end, however many steps it is given. -/
theorem ComesBack.endless (h : b.ComesBack t i) (steps : Nat) :
    ∃ e, b.elideFrom t steps i = .error e ∧ e.fault = .endless := by
  by_contra hends
  refine exists_trail_iff.mp (exists_trail steps fun e he hfault => ?_) h
  exact hends ⟨e, he, hfault⟩

/-- Any other walk ends, and more steps than there are nodes change nothing. -/
theorem elideFrom_eq_elide (h : ¬ b.ComesBack t i) {steps : Nat} (hsteps : t.nodes.size ≤ steps) :
    b.elideFrom t steps i = b.elide t i := by
  obtain ⟨l, hl⟩ := exists_trail_iff.mpr h
  rw [elide, elide_of_trail hl hsteps, elide_of_trail hl (Nat.le_refl _)]

theorem fault_of_elide (h : ¬ b.ComesBack t i) {e : Error} (he : b.elide t i = .error e) :
    e.fault ≠ .endless := by
  obtain ⟨l, hl⟩ := exists_trail_iff.mpr h
  rw [elide, elide_of_trail hl (Nat.le_refl _)] at he
  exact fault_of_arrive he

/-- A node that is seen is in the tree, so its kind is there to look at. -/
theorem kind_of_elide {j : NodeId} (h : b.elide t i = .ok j) : ∃ kind, t.kind j = .ok kind := by
  obtain ⟨-, n, hn, -⟩ := elide_eq_ok_iff.mp h
  exact ⟨n.kind, Tree.kind_eq_ok hn⟩

theorem fault_of_kept? (h : ¬ b.ComesBack t i) {e : Error} (he : b.kept? t i = .error e) :
    e.fault ≠ .endless := by
  rcases bind_eq_error_iff.mp he with he | ⟨j, hj, he⟩
  · exact fault_of_elide h he
  · obtain ⟨kind, hkind⟩ := kind_of_elide hj
    rw [hkind] at he
    cases he

end Blueprint

theorem View.fault_of_element {v : View} {s : Schema} {i : NodeId} (hs : Finished v.blueprint s)
    (h : ¬ v.blueprint.ComesBack v.tree i) (above : List Placement) :
    Ends (v.element i above) s (fun _ _ => True) fun e _ => e.fault ≠ .endless := by
  refine Ends.bind_lift (fun j hj => ?_) fun e he => Blueprint.fault_of_elide h he
  obtain ⟨kind, hkind⟩ := Blueprint.kind_of_elide hj
  rw [hkind]
  refine Ends.bind_ok (Ends.bind (P := fun _ _ => True) ?_ fun _ _ _ => Ends.pure trivial)
  refine (hs.ends_entityId kind).mono (fun _ _ _ => trivial) fun e s' he => ?_
  rcases he.2 with hfault | rfl
  · simp [hfault]
  · simp [Error.fault]

/--
**Passing transparent nodes ends unless it comes back.**  If the walk from a node gets to a node
that it comes back to, then it has not ended after any number of steps.  Otherwise as many steps as
the tree has nodes decide it, and neither looking whether a node is kept nor seeing it as an
element, whatever was asked before, fails for want of an end.  In a tree that was built no walk
comes back.
-/
theorem elision_ends (v : View) (before : List Call) (i : NodeId) (above : List Placement) :
    (v.blueprint.ComesBack v.tree i → ∀ steps, ∃ e,
        v.blueprint.elideFrom v.tree steps i = .error e ∧ e.fault = .endless) ∧
      (¬ v.blueprint.ComesBack v.tree i →
        (∀ steps, v.tree.nodes.size ≤ steps →
          v.blueprint.elideFrom v.tree steps i = v.blueprint.elide v.tree i) ∧
        (∀ e, v.blueprint.kept? v.tree i = .error e → e.fault ≠ .endless) ∧
        ∀ e s', v.element i above (v.blueprint.session before).schema = .error e s' →
          e.fault ≠ .endless) ∧
      (v.tree.Built → ¬ v.blueprint.ComesBack v.tree i) := by
  have hfinished := (Session.Holds.session v.blueprint before).finished
  refine ⟨fun h => h.endless, fun h => ⟨fun steps hsteps => ?_, fun e he => ?_, fun e s' he => ?_⟩,
    fun ht => ht.ordered.not_comesBack i⟩
  · exact Blueprint.elideFrom_eq_elide h hsteps
  · exact Blueprint.fault_of_kept? h he
  · exact (View.fault_of_element hfinished h above).of_error he

/-! ### A walk without an end -/

/-- All numbers in a tree denote something. -/
structure Tree.InRange (t : Tree) : Prop where
  root : ∀ i ∈ t.root, i.index < t.nodes.size
  parent : ∀ n ∈ t.nodes, ∀ p ∈ n.parent, p.index < t.nodes.size
  children : ∀ n ∈ t.nodes, ∀ c ∈ n.children, t.Has c
  start : ∀ n ∈ t.nodes, ∀ x ∈ n.start, x.index < t.tokens.size
  stop : ∀ n ∈ t.nodes, ∀ x ∈ n.stop, x.index < t.tokens.size
  bindings : ∀ n ∈ t.nodes, ∀ name x, n.bindings.find? name = some x →
    ∀ c ∈ (Filling.ofBinding x).toList, t.Has c

/-- A language of wrappers, which are all transparent. -/
def wrappers : Blueprint where
  grammar := .ofParts "wrappers" none [⟨"Wrap", none, [.ofItem (.node "Wrap") .single]⟩] []
  config := Config.standard.markTransparent "Wrap"
  ignoredTypes := []
  known := by decide +kernel

/-- Two wrappers, each of them the only child of the other. -/
def wrapped : Tree where
  nodes := #[⟨"Wrap", some ⟨1⟩, [.node ⟨1⟩], none, none, ∅⟩,
    ⟨"Wrap", some ⟨0⟩, [.node ⟨0⟩], none, none, ∅⟩]
  tokens := #[]
  root := some ⟨0⟩

/-- There is no node to be seen in the place of one that wraps itself. -/
theorem elision_endless_wrapped :
    wrapped.InRange ∧ ∀ steps, ∃ e,
      wrappers.elideFrom wrapped steps ⟨0⟩ = .error e ∧ e.fault = .endless := by
  refine ⟨?_, fun steps => Blueprint.ComesBack.endless ?_ steps⟩
  · constructor <;> simp [wrapped, Tree.Has, FinMap.find?_empty]
  · have hdown : wrappers.standIn? wrapped ⟨0⟩ = some ⟨1⟩ := by decide +kernel
    have hback : wrappers.standIn? wrapped ⟨1⟩ = some ⟨0⟩ := by decide +kernel
    exact ⟨⟨0⟩, .refl, .tail (.single hdown) hback⟩

end TreeSchema
