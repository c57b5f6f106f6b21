/-
Trees that a grammar describes.

A node conforms to the grammar if each of its children fits a slot of its kind, and so does
what it bound to labels.  Where slot names are unambiguous and features are not renamed, a
slot of a conforming node can be read by its own name, and what it holds has its arity and
fits it.  Nothing here looks at a schema.
-/
import TreeSchema.Element.Filling
import TreeSchema.Element.Basic
import TreeSchema.Proofs.Lineage
import TreeSchema.Proofs.Ordered

namespace TreeSchema

/-! ### What conforms -/

/-- The children of a node that are nodes. -/
def Node.nodesBelow (n : Node) : List NodeId :=
  n.children.filterMap fun c => match c with
    | .node id => some id
    | .token _ => none

/-- The slots of a kind, own and inherited. -/
def Grammar.offered (g : Grammar) (kind : String) : List Slot :=
  (g.kinds.filter fun k => g.conforms kind k.name).flatMap Kind.slots

theorem Grammar.mem_offered_iff {g : Grammar} {kind : String} {s : Slot} :
    s ∈ g.offered kind ↔ ∃ k ∈ g.kinds, g.conforms kind k.name = true ∧ s ∈ k.slots := by
  simp [offered, and_assoc]

namespace Filling

/-- The arity of a slot that is filled like this. -/
def arity : Filling → Arity
  | one _ => .single
  | many _ => .multi

theorem arity_ofFound (a : Arity) (cs : List Child) : (ofFound a cs).arity = a := by
  cases a <;> rfl

theorem mem_of_mem_ofFound {a : Arity} {cs : List Child} {c : Child}
    (h : c ∈ (ofFound a cs).toList) : c ∈ cs := by
  cases a with
  | single => exact List.mem_of_mem_head? (Option.mem_toList.mp h)
  | multi => exact h

end Filling

namespace Blueprint

/-- A child is what an item asks for. -/
def Fits (b : Blueprint) (t : Tree) : Item → Child → Prop
  | .node target, .node id => ∃ n ∈ t.node? id, b.grammar.conforms n.kind target = true
  | .terminal symbol, .token id =>
    ∃ x ∈ t.token? id, b.grammar.vocabulary.type? symbol = some x.type
  | .node _, .token _ => False
  | .terminal _, .node _ => False

instance (b : Blueprint) (t : Tree) : ∀ i c, Decidable (b.Fits t i c)
  | .node target, .node id =>
    inferInstanceAs (Decidable (∃ n ∈ t.node? id, b.grammar.conforms n.kind target = true))
  | .terminal symbol, .token id =>
    inferInstanceAs
      (Decidable (∃ x ∈ t.token? id, b.grammar.vocabulary.type? symbol = some x.type))
  | .node _, .token _ => .isFalse id
  | .terminal _, .node _ => .isFalse id

theorem exists_of_fits_node {b : Blueprint} {t : Tree} {item : Item} {id : NodeId}
    (h : b.Fits t item (.node id)) :
    ∃ target n, item = .node target ∧ t.node? id = some n ∧
      b.grammar.conforms n.kind target = true := by
  cases item with
  | terminal symbol => exact h.elim
  | node target =>
      obtain ⟨n, hn, hconforms⟩ := h
      exact ⟨target, n, rfl, hn, hconforms⟩

/-- A token that does not count below a transparent node. -/
def IsIgnored (b : Blueprint) (t : Tree) : Child → Prop
  | .node _ => False
  | .token id => ∃ x ∈ t.token? id, x.type ∈ b.ignoredTypes

instance (b : Blueprint) (t : Tree) : ∀ c, Decidable (b.IsIgnored t c)
  | .node _ => .isFalse id
  | .token id => inferInstanceAs (Decidable (∃ x ∈ t.token? id, x.type ∈ b.ignoredTypes))

/-- A node is one that the grammar describes. -/
structure Conforms (b : Blueprint) (t : Tree) (n : Node) : Prop where
  known : ∃ k ∈ b.grammar.kinds, k.name = n.kind
  /-- Nodes below it fit a slot. -/
  nodes : ∀ id ∈ n.nodesBelow, ∃ s ∈ b.grammar.offered n.kind, b.Fits t s.item (.node id)
  /-- What is bound to a name is what the slot of that name asks for. -/
  bindings : ∀ p ∈ n.bindings.entries, ∃ s ∈ b.grammar.offered n.kind, s.name = p.1 ∧
    (Filling.ofBinding p.2).arity = s.arity ∧
    ∀ c ∈ (Filling.ofBinding p.2).toList, b.Fits t s.item c
  /-- A transparent node wraps one other node. -/
  wraps : n.kind ∈ b.config.transparent →
    ∃ id ∈ n.nodesBelow, n.children.filter (fun c => ¬ b.IsIgnored t c) = [.node id]

/-- What a blueprint has to satisfy for the slots of conforming nodes to be readable. -/
structure Disciplined (b : Blueprint) : Prop where
  /-- The kind that all kinds extend is not described. -/
  base : ∀ k ∈ b.grammar.kinds, b.grammar.isBase k.name = false
  /-- Kinds with a parent are neither transparent nor flattened. -/
  derived : ∀ k ∈ b.grammar.kinds, b.grammar.parent? k.name ≠ none →
    k.name ∉ b.config.transparent ∧ k.name ∉ b.config.flattened
  /-- The slots of one kind have different names. -/
  names : ∀ k ∈ b.grammar.kinds, (k.slots.map Slot.name).Nodup
  /-- No slot has the name of one of a kind above its own. -/
  inherited : ∀ k ∈ b.grammar.kinds, ∀ a ∈ b.grammar.kinds,
    b.grammar.conforms k.name a.name = true → k.name ≠ a.name →
    ∀ s ∈ k.slots, ∀ s' ∈ a.slots, s.name ≠ s'.name
  /-- No slot is renamed. -/
  plain : ∀ p ∈ b.config.rules.entries, p.2.renames = ∅

end Blueprint

/-! ### Finding a slot -/

namespace Config

variable {c : Config}

theorem renames_eq (h : ∀ p ∈ c.rules.entries, p.2.renames = ∅) (kind : String) :
    (c.rule kind).renames = ∅ := by
  unfold rule rule?
  cases hr : c.rules.find? kind with
  | none => rfl
  | some r => exact h _ (FinMap.find?_eq_some_iff.mp hr)

theorem slotName_eq (h : ∀ p ∈ c.rules.entries, p.2.renames = ∅) (kind feature : String) :
    c.slotName kind feature = feature := by
  rw [slotName, KindRule.slotName, renames_eq h]
  rfl

theorem featureName_eq (h : ∀ p ∈ c.rules.entries, p.2.renames = ∅) (kind slot : String) :
    c.featureName kind slot = slot := by
  rw [featureName, KindRule.featureName, renames_eq h]
  rfl

end Config

namespace Blueprint

/-- A slot that shares its name with no other slot of a kind is found by it. -/
theorem declaredSlot?_eq_of_unique {b : Blueprint} {kind : String} {s : Slot}
    (hplain : ∀ p ∈ b.config.rules.entries, p.2.renames = ∅) (hs : s ∈ b.grammar.offered kind)
    (hunique : ∀ s' ∈ b.grammar.offered kind, s'.name = s.name → s' = s) :
    b.declaredSlot? kind s.name = some (s.name, s) := by
  unfold declaredSlot?
  simp only [Config.slotName_eq hplain]
  cases hfind : (b.grammar.lineage kind).findSome? fun k =>
      ((b.grammar.kind? k).bind (·.slot? s.name)).map (s.name, ·) with
  | none =>
      obtain ⟨k, hk, hkind, hks⟩ := Grammar.mem_offered_iff.mp hs
      have hnone := List.findSome?_eq_none_iff.mp hfind k.name (of_decide_eq_true hkind)
      have hknown := Grammar.kind?_eq_some_iff.mpr ⟨hk, rfl⟩
      rw [hknown, Option.bind_some, Option.map_eq_none_iff] at hnone
      simpa using List.find?_eq_none.mp hnone s hks
  | some x =>
      obtain ⟨k, hkind, hx⟩ := List.exists_of_findSome?_eq_some hfind
      obtain ⟨s', hslot, rfl⟩ := Option.map_eq_some_iff.mp hx
      obtain ⟨a, hknown, hfound⟩ := Option.bind_eq_some_iff.mp hslot
      obtain ⟨ha, rfl⟩ := Grammar.kind?_eq_some_iff.mp hknown
      have hname : s'.name = s.name := by simpa using List.find?_some hfound
      have hoffered : s' ∈ b.grammar.offered kind :=
        Grammar.mem_offered_iff.mpr ⟨a, ha, decide_eq_true hkind, List.mem_of_find?_eq_some hfound⟩
      rw [hunique s' hoffered hname]

namespace Disciplined

variable {b : Blueprint} {kind : String} {s s' : Slot}

/-- A name stands for one slot of a kind. -/
theorem slot_unique (h : b.Disciplined) (hs : s ∈ b.grammar.offered kind)
    (hs' : s' ∈ b.grammar.offered kind) (hname : s.name = s'.name) : s = s' := by
  obtain ⟨k, hk, hkind, hs⟩ := Grammar.mem_offered_iff.mp hs
  obtain ⟨k', hk', hkind', hs'⟩ := Grammar.mem_offered_iff.mp hs'
  by_cases hkk : k.name = k'.name
  · obtain rfl := List.inj_on_of_nodup_map b.grammar.distinct hk hk' hkk
    exact List.inj_on_of_nodup_map (h.names k hk) hs hs' hname
  · -- both kinds are on one way up, so one of them is above the other
    rcases Relation.ReflTransGen.total_of_right_unique Grammar.DerivesFrom.rightUnique
      (Grammar.conforms_iff.mp hkind) (Grammar.conforms_iff.mp hkind') with hup | hup
    · exact absurd hname (h.inherited k hk k' hk' (Grammar.conforms_iff.mpr hup) hkk s hs s' hs')
    · exact absurd hname.symm
        (h.inherited k' hk' k hk (Grammar.conforms_iff.mpr hup) (Ne.symm hkk) s' hs' s hs)

/-- A slot is found by its name. -/
theorem declaredSlot?_eq (h : b.Disciplined) (hs : s ∈ b.grammar.offered kind) :
    b.declaredSlot? kind s.name = some (s.name, s) :=
  declaredSlot?_eq_of_unique h.plain hs fun _ hs' hname => h.slot_unique hs' hs hname

end Disciplined

/-! ### Reading a slot -/

variable {b : Blueprint} {t : Tree} {n : Node} {id : NodeId} {s : Slot}

theorem isNodeOf_eq_ok (ht : t.Ordered) (hn : t.node? id = some n) (target : String) {c : Child}
    (hc : c ∈ n.children) : b.isNodeOf t target c = .ok (decide (b.Fits t (.node target) c)) := by
  have hlead := ht.child hn hc
  cases c with
  | token id => rfl
  | node id =>
      obtain ⟨m, hm⟩ := Tree.node?_of_lt hlead.2
      rw [isNodeOf, Tree.kind_eq_ok hm]
      simp [Fits, hm, bind, Except.bind, pure, Except.pure]

/-- Looking through the children of a node finds those that fit a slot for nodes. -/
theorem eq_filter_of_fitting {name target : String} {cs : List Child}
    (hitem : s.item = .node target) (h : b.fitting t n name s = .ok cs) :
    cs = n.children.filter fun c => b.Fits t s.item c := by
  rw [hitem]
  simp only [fitting, hitem] at h
  refine filterM_eq_filter h ?_
  intro c _ keep hkeep
  cases c with
  | token x =>
      cases hkeep
      rfl
  | node i =>
      obtain ⟨kind, hkind, hkeep⟩ := bind_eq_ok_iff.mp hkeep
      obtain ⟨m, hm, rfl⟩ := map_eq_ok_iff.mp hkind
      cases hkeep
      simp [Fits, Tree.node_eq_ok_iff.mp hm]

theorem filling_eq (hn : t.node? id = some n) {feature name : String}
    (hslot : b.declaredSlot? n.kind feature = some (name, s)) :
    b.filling t id feature =
      match n.bindings.find? name with
      | some binding => .ok (.ofBinding binding)
      | none =>
        if s.isDefault then .ofFound s.arity <$> b.fitting t n name s
        else .ok (.empty s.arity) := by
  unfold filling
  rw [Tree.node_eq_ok_iff.mpr hn]
  simp only [bind, Except.bind, hslot]
  rfl

/-- A slot for nodes can be read by its name from a conforming node: it has its arity, and
everything in it fits. -/
theorem Conforms.filling_eq_ok (hc : b.Conforms t n) (h : b.Disciplined) (ht : t.Ordered)
    (hn : t.node? id = some n) (hs : s ∈ b.grammar.offered n.kind) {target : String}
    (item : s.item = .node target) :
    ∃ f, b.filling t id s.name = .ok f ∧ f.arity = s.arity ∧ ∀ c ∈ f.toList, b.Fits t s.item c := by
  rw [filling_eq hn (h.declaredSlot?_eq hs)]
  cases hbinding : n.bindings.find? s.name with
  | some binding =>
      obtain ⟨s', hs', hname, harity, hfits⟩ :=
        hc.bindings _ (FinMap.find?_eq_some_iff.mp hbinding)
      obtain rfl := h.slot_unique hs' hs hname
      exact ⟨_, rfl, harity, hfits⟩
  | none =>
      by_cases hdefault : s.isDefault = true
      · have hfitting : b.fitting t n s.name s =
            .ok (n.children.filter fun c => b.Fits t (.node target) c) := by
          rw [fitting, item]
          exact filterM_eq_ok fun c hmem => isNodeOf_eq_ok ht hn target hmem
        simp only [if_pos hdefault, hfitting]
        refine ⟨_, rfl, Filling.arity_ofFound .., fun c hmem => ?_⟩
        have hfits := (List.mem_filter.mp (Filling.mem_of_mem_ofFound hmem)).2
        rw [item]
        exact of_decide_eq_true hfits
      · simp only [if_neg hdefault]
        refine ⟨_, rfl, ?_⟩
        cases s.arity <;> simp [Filling.empty, Filling.arity, Filling.toList]

/-! ### Passing a transparent node -/

theorem isRelevant_eq_ok (ht : t.Ordered) (hn : t.node? id = some n) {c : Child}
    (hc : c ∈ n.children) : b.isRelevant t c = .ok (decide ¬ b.IsIgnored t c) := by
  have hlead := ht.child hn hc
  cases c with
  | node id => rfl
  | token id =>
      have hx : t.token? id = some t.tokens[id.index] := Array.getElem?_eq_getElem hlead
      rw [isRelevant, Tree.token, hx]
      simp [IsIgnored, hx, ignoresType, bind, Except.bind, pure, Except.pure]

theorem takeRelevant_eq_ok (m : Nat) :
    ∀ {cs : List Child}, (∀ c ∈ cs, b.isRelevant t c = .ok (decide ¬ b.IsIgnored t c)) →
      b.takeRelevant t m cs = .ok ((cs.filter fun c => ¬ b.IsIgnored t c).take m) := by
  induction m with
  | zero => exact fun {cs} _ => by rw [takeRelevant, List.take_zero]
  | succ m ih =>
      intro cs h
      induction cs with
      | nil => rfl
      | cons c cs ih' =>
          have hcs : ∀ d ∈ cs, b.isRelevant t d = .ok (decide ¬ b.IsIgnored t d) :=
            fun d hd => h d (List.mem_cons_of_mem _ hd)
          rw [takeRelevant, h c (by simp)]
          by_cases hc : b.IsIgnored t c
          · simp [hc, bind, Except.bind, ih' hcs]
          · simp [hc, bind, Except.bind, ih hcs, pure, Except.pure]

/-- A transparent node that conforms has another node to stand in for it, which comes after
it and fits one of its slots. -/
theorem Conforms.standIn_eq_ok (hc : b.Conforms t n) (ht : t.Ordered)
    (hn : t.node? id = some n) (htransparent : n.kind ∈ b.config.transparent) :
    ∃ c, b.standIn t n = .ok c ∧ t.Leads id (.node c) ∧
      ∃ s ∈ b.grammar.offered n.kind, b.Fits t s.item (.node c) := by
  obtain ⟨c, hbelow, hwraps⟩ := hc.wraps htransparent
  have hmem : .node c ∈ n.children := by
    have hfiltered : .node c ∈ n.children.filter fun c => ¬ b.IsIgnored t c :=
      hwraps ▸ List.mem_singleton_self _
    exact (List.mem_filter.mp hfiltered).1
  refine ⟨c, ?_, ht.child hn hmem, hc.nodes c hbelow⟩
  unfold standIn
  rw [takeRelevant_eq_ok 2 fun c hmem => isRelevant_eq_ok ht hn hmem, hwraps]
  rfl

/-- A tree that was built and that the grammar describes. -/
structure WellTyped (b : Blueprint) (t : Tree) : Prop where
  built : t.Built
  conforms : ∀ n ∈ t.nodes, b.Conforms t n

theorem WellTyped.conforms_of_node? (h : b.WellTyped t) (hn : t.node? id = some n) :
    b.Conforms t n :=
  h.conforms n (Array.mem_of_getElem? hn)

end Blueprint

end TreeSchema
