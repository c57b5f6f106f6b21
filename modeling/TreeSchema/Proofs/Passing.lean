/-
Passing transparent nodes.

A transparent node gives way to the one child of it that counts, that one to its own, and so on.
So what is seen in the place of a node is found by following a function from nodes to nodes,
`Blueprint.standIn?`.  If there is a trail along it then no node comes twice on it, so there are no
more steps than the tree has nodes, and the walk ends with what the last node gives.  If there is
none then the walk comes back to a node, and goes round for ever however many steps it is given.
-/
import TreeSchema.Proofs.Conforming

namespace TreeSchema

/-- Whether a node is in a tree. -/
def Tree.holds (t : Tree) (i : NodeId) : Bool := (t.node? i).isSome

namespace Blueprint

variable {b : Blueprint} {t : Tree} {n : Node} {i j : NodeId} {l : List NodeId}

/-! ### Standing in for a node -/

theorem mem_of_takeRelevant {c : Child} :
    ∀ (k : Nat) {cs l : List Child}, b.takeRelevant t k cs = .ok l → c ∈ l → c ∈ cs := by
  intro k cs
  induction cs generalizing k with
  | nil =>
      intro l h hc
      cases k <;> cases h <;> cases hc
  | cons d cs ih =>
      intro l h hc
      cases k with
      | zero =>
          cases h
          cases hc
      | succ k =>
          rw [takeRelevant] at h
          obtain ⟨keep, -, h⟩ := bind_eq_ok_iff.mp h
          cases keep with
          | false => exact List.mem_cons_of_mem _ (ih _ h hc)
          | true =>
              obtain ⟨rest, hrest, h⟩ := bind_eq_ok_iff.mp h
              cases h
              rcases List.mem_cons.mp hc with rfl | hc
              · exact List.mem_cons_self
              · exact List.mem_cons_of_mem _ (ih _ hrest hc)

/-- What stands in for a node is one of its children. -/
theorem mem_of_standIn (h : b.standIn t n = .ok j) : .node j ∈ n.children := by
  obtain ⟨l, hl, h⟩ := bind_eq_ok_iff.mp h
  split at h
  · cases h
    exact mem_of_takeRelevant 2 hl List.mem_cons_self
  · cases h
  · cases h

theorem fault_of_isRelevant {c : Child} {e : Error} (h : b.isRelevant t c = .error e) :
    e.fault = .dangling := by
  cases c with
  | node j => cases h
  | token x =>
      rcases bind_eq_error_iff.mp h with h | ⟨a, -, h⟩
      · unfold Tree.token at h
        split at h <;> cases h
        rfl
      · cases h

theorem fault_of_takeRelevant {e : Error} :
    ∀ (k : Nat) {cs : List Child}, b.takeRelevant t k cs = .error e → e.fault = .dangling := by
  intro k cs
  induction cs generalizing k with
  | nil =>
      intro h
      cases k <;> cases h
  | cons c cs ih =>
      intro h
      cases k with
      | zero => cases h
      | succ k =>
          rw [takeRelevant] at h
          rcases bind_eq_error_iff.mp h with h | ⟨keep, -, h⟩
          · exact fault_of_isRelevant h
          · cases keep with
            | false => exact ih _ h
            | true =>
                rcases bind_eq_error_iff.mp h with h | ⟨_, -, h⟩
                · exact ih _ h
                · cases h

/-- Nothing stands in for a node because its children do not fit, or because a number among them
denotes nothing. -/
theorem fault_of_standIn {e : Error} (h : b.standIn t n = .error e) :
    e.fault = .structuralMismatch ∨ e.fault = .dangling := by
  rcases bind_eq_error_iff.mp h with h | ⟨l, -, h⟩
  · exact .inr (fault_of_takeRelevant 2 h)
  · split at h <;> cases h
    · exact .inl rfl
    · exact .inl rfl

/-- The node that stands in for a node, if that one is transparent and there is one. -/
def standIn? (b : Blueprint) (t : Tree) (i : NodeId) : Option NodeId := do
  let n ← t.node? i
  if b.config.isTransparent n.kind then (b.standIn t n).toOption else none

theorem standIn?_eq_some_iff :
    b.standIn? t i = some j ↔
      ∃ n, t.node? i = some n ∧ n.kind ∈ b.config.transparent ∧ b.standIn t n = .ok j := by
  unfold standIn?
  cases hn : t.node? i with
  | none => simp
  | some n => simp [Config.isTransparent, toOption_eq_some_iff]

/-- What a walk ends with at a node that nothing stands in for. -/
def arrive (b : Blueprint) (t : Tree) (i : NodeId) : Except Error NodeId := do
  let n ← t.node i
  if b.config.isTransparent n.kind then b.standIn t n else return i

theorem standIn?_eq_none (h : ∃ n, t.node? i = some n ∧ n.kind ∉ b.config.transparent) :
    b.standIn? t i = none := by
  obtain ⟨n, hn, hplain⟩ := h
  simp [standIn?, hn, Config.isTransparent, hplain]

theorem arrive_eq_ok_iff (h : b.standIn? t i = none) :
    b.arrive t i = .ok j ↔ i = j ∧ ∃ n, t.node? j = some n ∧ n.kind ∉ b.config.transparent := by
  constructor
  · intro hj
    obtain ⟨n, hn, hj⟩ := bind_eq_ok_iff.mp hj
    rw [Tree.node_eq_ok_iff] at hn
    by_cases htransparent : n.kind ∈ b.config.transparent
    · simp only [Config.isTransparent, htransparent, decide_true, if_true] at hj
      simp [standIn?_eq_some_iff.mpr ⟨n, hn, htransparent, hj⟩] at h
    · simp only [Config.isTransparent, htransparent, decide_false] at hj
      cases hj
      exact ⟨rfl, n, hn, htransparent⟩
  · rintro ⟨rfl, n, hn, hplain⟩
    rw [arrive, Tree.node_eq_ok_iff.mpr hn]
    simp [bind, Except.bind, Config.isTransparent, hplain, pure, Except.pure]

theorem fault_of_arrive {e : Error} (h : b.arrive t i = .error e) : e.fault ≠ .endless := by
  rcases bind_eq_error_iff.mp h with h | ⟨n, -, h⟩
  · unfold Tree.node at h
    split at h <;> cases h
    simp [Error.fault]
  · split at h
    · rcases fault_of_standIn h with hf | hf <;> simp [hf]
    · cases h

/-! ### The walk -/

theorem elideFrom_of_plain (hn : t.node? i = some n) (hplain : n.kind ∉ b.config.transparent)
    (steps : Nat) : b.elideFrom t steps i = .ok i := by
  unfold elideFrom
  rw [Tree.node_eq_ok_iff.mpr hn]
  simp [bind, Except.bind, Config.isTransparent, hplain, pure, Except.pure]

theorem elideFrom_of_transparent (hn : t.node? i = some n)
    (htransparent : n.kind ∈ b.config.transparent) {j : NodeId} (hj : b.standIn t n = .ok j)
    (steps : Nat) : b.elideFrom t (steps + 1) i = b.elideFrom t steps j := by
  rw [elideFrom, Tree.node_eq_ok_iff.mpr hn]
  simp [bind, Except.bind, Config.isTransparent, htransparent, hj]

theorem elideFrom_succ (h : b.standIn? t i = some j) (steps : Nat) :
    b.elideFrom t (steps + 1) i = b.elideFrom t steps j := by
  obtain ⟨n, hn, htransparent, hj⟩ := standIn?_eq_some_iff.mp h
  exact elideFrom_of_transparent hn htransparent hj steps

/-- Without a step left there is no way past a transparent node. -/
theorem elideFrom_zero (h : b.standIn? t i = some j) :
    ∃ e, b.elideFrom t 0 i = .error e ∧ e.fault = .endless := by
  obtain ⟨n, hn, htransparent, -⟩ := standIn?_eq_some_iff.mp h
  refine ⟨.endlessWalk n.kind, ?_, rfl⟩
  rw [elideFrom, Tree.node_eq_ok_iff.mpr hn]
  simp [bind, Except.bind, Config.isTransparent, htransparent, throw, throwThe,
    MonadExceptOf.throw]

theorem elideFrom_of_standIn?_eq_none (h : b.standIn? t i = none) {steps : Nat}
    (hsteps : [i].countP t.holds ≤ steps) : b.elideFrom t steps i = b.arrive t i := by
  unfold elideFrom arrive
  cases hn : t.node? i with
  | none => simp [Tree.node, hn, bind, Except.bind]
  | some n =>
      obtain ⟨steps, rfl⟩ : ∃ k, steps = k + 1 :=
        Nat.exists_eq_succ_of_ne_zero (by simp [Tree.holds, hn] at hsteps; omega)
      rw [Tree.node_eq_ok_iff.mpr hn]
      by_cases htransparent : n.kind ∈ b.config.transparent
      · cases hj : b.standIn t n with
        | error e => simp [bind, Except.bind, Config.isTransparent, htransparent, hj]
        | ok j => simp [standIn?_eq_some_iff.mpr ⟨n, hn, htransparent, hj⟩] at h
      · simp [bind, Except.bind, Config.isTransparent, htransparent]

/-- On a trail the walk comes to the last node, if it has as many steps as there are nodes of the
tree on the way. -/
theorem elideFrom_of_trail (h : Trail (b.standIn? t) i l) :
    ∀ {steps : Nat}, (i :: l).countP t.holds ≤ steps →
      b.elideFrom t steps i = b.arrive t (l.getLastD i) := by
  induction h with
  | stop h => exact fun hsteps => elideFrom_of_standIn?_eq_none h hsteps
  | @step i j l h _ ih =>
      intro steps hsteps
      obtain ⟨n, hn, -⟩ := standIn?_eq_some_iff.mp h
      rw [List.countP_cons_of_pos (by simp [Tree.holds, hn])] at hsteps
      obtain ⟨steps, rfl⟩ : ∃ k, steps = k + 1 := Nat.exists_eq_succ_of_ne_zero (by omega)
      rw [elideFrom_succ h, ih (by omega), List.getLastD_cons]

/-- As no node comes twice on a trail, the tree has nodes enough. -/
theorem countP_le_size (h : Trail (b.standIn? t) i l) :
    (i :: l).countP t.holds ≤ t.nodes.size := by
  rw [List.countP_eq_length_filter]
  have hsub : (i :: l).filter t.holds ⊆ (List.range t.nodes.size).map NodeId.mk := by
    intro j hj
    obtain ⟨n, hn⟩ := Option.isSome_iff_exists.mp (List.mem_filter.mp hj).2
    exact List.mem_map.mpr ⟨j.index, List.mem_range.mpr (Tree.index_lt hn), rfl⟩
  simpa using (List.subperm_of_subset (h.nodup.filter _) hsub).length_le

theorem elide_of_trail (h : Trail (b.standIn? t) i l) {steps : Nat}
    (hsteps : t.nodes.size ≤ steps) : b.elideFrom t steps i = b.arrive t (l.getLastD i) :=
  elideFrom_of_trail h ((countP_le_size h).trans hsteps)

/-- A walk that ends has followed a trail. -/
theorem exists_trail (steps : Nat) :
    ∀ {i : NodeId}, (∀ e, b.elideFrom t steps i = .error e → e.fault ≠ .endless) →
      ∃ l, Trail (b.standIn? t) i l := by
  induction steps with
  | zero =>
      intro i h
      cases hj : b.standIn? t i with
      | none => exact ⟨[], .stop hj⟩
      | some j =>
          obtain ⟨e, he, hendless⟩ := elideFrom_zero hj
          exact absurd hendless (h e he)
  | succ steps ih =>
      intro i h
      cases hj : b.standIn? t i with
      | none => exact ⟨[], .stop hj⟩
      | some j =>
          rw [elideFrom_succ hj] at h
          obtain ⟨l, hl⟩ := ih h
          exact ⟨j :: l, .step hj hl⟩

/-- The node that is seen in the place of another is the first one on the way from there that is
not transparent. -/
theorem elide_eq_ok_iff :
    b.elide t i = .ok j ↔ Relation.ReflTransGen (b.standIn? t · = some ·) i j ∧
      ∃ n, t.node? j = some n ∧ n.kind ∉ b.config.transparent := by
  constructor
  · intro h
    obtain ⟨l, hl⟩ := exists_trail t.nodes.size fun e he => by cases h.symm.trans he
    rw [elide, elide_of_trail hl (Nat.le_refl _)] at h
    obtain ⟨rfl, hplain⟩ := (arrive_eq_ok_iff hl.getLastD_eq_none).mp h
    exact ⟨hl.reflTransGen_of_mem List.getLastD_mem_cons, hplain⟩
  · rintro ⟨hpath, hplain⟩
    have hlast := standIn?_eq_none hplain
    obtain ⟨l, hl, rfl⟩ := Trail.exists_of_eq_none hpath hlast
    rw [elide, elide_of_trail hl (Nat.le_refl _)]
    exact (arrive_eq_ok_iff hlast).mpr ⟨rfl, hplain⟩

/-- A node that is not transparent is seen itself. -/
theorem eq_of_elide (h : b.elide t i = .ok j) (hn : t.node? i = some n)
    (hplain : n.kind ∉ b.config.transparent) : j = i := by
  rw [elide, elideFrom_of_plain hn hplain, Except.ok.injEq] at h
  exact h.symm

/-! ### Coming back -/

/-- From a node the walk gets to one that it comes back to. -/
def ComesBack (b : Blueprint) (t : Tree) (i : NodeId) : Prop :=
  ∃ j, Relation.ReflTransGen (b.standIn? t · = some ·) i j ∧
    Relation.TransGen (b.standIn? t · = some ·) j j

theorem exists_trail_iff : (∃ l, Trail (b.standIn? t) i l) ↔ ¬ b.ComesBack t i := by
  have hdom : ∀ {i j}, b.standIn? t i = some j →
      i ∈ (Finset.range t.nodes.size).image NodeId.mk := by
    intro i j h
    obtain ⟨n, hn, -⟩ := standIn?_eq_some_iff.mp h
    exact Finset.mem_image.mpr ⟨i.index, Finset.mem_range.mpr (Tree.index_lt hn), rfl⟩
  rw [Trail.exists_iff hdom]
  simp [ComesBack]

end Blueprint

end TreeSchema
