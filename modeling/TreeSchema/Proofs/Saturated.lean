/-
Schemas with all entities there can be.

Once all kinds of a grammar were asked for with success, every kind that is not passed over
has its entity, and asking again changes nothing.  Then schema and tree have to agree on
what a relation leads to, although they get there in different ways: the schema passes
transparent kinds one by one, and the tree transparent nodes.  `Conforms.elideFrom_eq_ok` is
the simulation between the two.
-/
import TreeSchema.Proofs.Passing
import TreeSchema.Proofs.Requests

namespace TreeSchema

/-- A schema in which every kind that can have an entity has one. -/
structure Saturated (b : Blueprint) (s : Schema) : Prop where
  finished : Finished b s
  all : ∀ k ∈ b.grammar.kinds, b.isMappable k.name = true → ∃ id, s.idOf? k.name = some id

variable {b : Blueprint} {s : Schema} {kind target effective : String} {id : EntityId}

theorem saturated_of_deriveAll {requests : List Request} {n : Nat}
    (h : b.deriveAll (b.served requests) = .ok n s) : Saturated b s := by
  obtain ⟨hf, -, -, hall⟩ := (b.finished_served requests).ends_deriveAll.of_ok h
  exact ⟨hf, hall⟩

/-! ### Where relations come from -/

/-- A relation of an entity, own or inherited, is emitted by a slot of a kind above. -/
theorem Finished.exists_slot (h : Finished b s) (hid : s.idOf? kind = some id) {r : Relation}
    (hr : .relation r ∈ s.features id) :
    ∃ k ∈ b.grammar.kinds, b.grammar.conforms kind k.name = true ∧ ∃ slot ∈ k.slots, ∃ effective,
      b.Emits k.name slot (.relation r.name r.multiplicity effective) ∧
        s.idOf? effective = some r.target := by
  obtain ⟨p, e, hp, he, hmem⟩ := Schema.exists_entity_of_mem_features hr
  obtain ⟨ancestor, hconforms, hpid⟩ := (h.consistent.mem_ancestry_iff hid).mp hp
  obtain ⟨e', he', rfl⟩ := h.consistent.idOf?_eq_some_iff.mp hpid
  rw [he, Option.some.injEq] at he'
  subst he'
  obtain ⟨k, cs, hk, hdeclares, hcarries⟩ := (h.derived he).features
  have hrel : r ∈ e.relations := by simpa [Entity.features] using hmem
  obtain ⟨l, hl, hrealizes⟩ := exists_of_mem_right hcarries.relations hrel
  obtain ⟨slot, hslot, hemits⟩ := hdeclares.exists_slot hl
  obtain ⟨hmemk, hname⟩ := Grammar.kind?_eq_some_iff.mp hk
  rw [← hrealizes.name, ← hrealizes.multiplicity] at hemits
  exact ⟨k, hmemk, hname ▸ hconforms, slot, hslot, l.target, hemits, hrealizes.target⟩

/-! ### Kinds that have an entity -/

/-- A kind that derives from another is neither transparent nor flattened. -/
theorem Blueprint.Disciplined.of_conforms (h : b.Disciplined)
    (hconforms : b.grammar.conforms kind target = true) (hne : kind ≠ target) :
    kind ∉ b.config.transparent ∧ kind ∉ b.config.flattened := by
  rcases Relation.ReflTransGen.cases_head (Grammar.conforms_iff.mp hconforms) with heq | ⟨_, hp, -⟩
  · exact absurd heq hne
  · obtain ⟨k, hk⟩ := hp.known
    obtain ⟨hmem, rfl⟩ := Grammar.kind?_eq_some_iff.mp hk
    exact h.derived k hmem fun hnone => Option.some_ne_none _ (hp.symm.trans hnone)

namespace Saturated

/-- All kinds that are not passed over have their entities. -/
theorem exists_idOf? (hs : Saturated b s) (h : b.Disciplined)
    (hknown : ∃ k ∈ b.grammar.kinds, k.name = kind) (hplain : kind ∉ b.config.transparent)
    (hnode : kind ∉ b.config.flattened) (hkept : kind ∉ b.config.dropped) :
    ∃ id, s.idOf? kind = some id := by
  obtain ⟨k, hk, rfl⟩ := hknown
  have hnone := Blueprint.exclusion?_eq_none_iff.mpr ⟨hplain, hnode, hkept⟩
  refine hs.all k hk ?_
  rw [Blueprint.isMappable, h.base k hk, hnone]
  rfl

/-- A kind that stays a node fits what the target of a slot elides to, if it fits the target
itself: kinds above it have entities, so the target is not transparent. -/
theorem conforms_effective (hs : Saturated b s) (h : b.Disciplined)
    (hknown : ∃ k ∈ b.grammar.kinds, k.name = kind) (hplain : kind ∉ b.config.transparent)
    (hkept : kind ∉ b.config.dropped) (hconforms : b.grammar.conforms kind target = true)
    (helides : b.Elides target effective) : b.grammar.conforms kind effective = true := by
  have htarget : target ∉ b.config.transparent := by
    by_cases heq : kind = target
    · exact heq ▸ hplain
    · obtain ⟨id, hid⟩ :=
        hs.exists_idOf? h hknown hplain (h.of_conforms hconforms heq).2 hkept
      obtain ⟨p, hp, -⟩ :=
        hs.finished.consistent.exists_ancestor hid (Grammar.conforms_iff.mp hconforms)
      obtain ⟨e, he, rfl⟩ := hs.finished.consistent.idOf?_eq_some_iff.mp hp
      exact (hs.finished.consistent.mappable he).1
  obtain rfl := helides.unique (.here (decide_eq_false htarget))
  exact hconforms

end Saturated

/-! ### Passing transparent nodes -/

namespace Blueprint

variable {t : Tree} {n : Node} {i : NodeId}

/-- One transparent node is passed just as its kind is. -/
theorem WellTyped.exists_standIn (ht : b.WellTyped t) (h : b.Disciplined) (hn : t.node? i = some n)
    (htransparent : n.kind ∈ b.config.transparent)
    (hconforms : b.grammar.conforms n.kind target = true) (helides : b.Elides target effective) :
    ∃ j m target', b.standIn t n = .ok j ∧ t.node? j = some m ∧ i.index < j.index ∧
      b.grammar.conforms m.kind target' = true ∧ b.Elides target' effective := by
  have hself : ∀ {kind}, b.grammar.conforms n.kind kind = true → n.kind = kind := by
    intro kind hk
    by_contra hne
    exact (h.of_conforms hk hne).1 htransparent
  obtain rfl := hself hconforms
  cases helides with
  | here hplain => exact absurd htransparent (of_decide_eq_false hplain)
  | @through _ target' _ k slot _ hk honly _ hitem hrest =>
      obtain ⟨j, hj, hlead, slot', hoffered, hfits⟩ :=
        (ht.conforms_of_node? hn).standIn_eq_ok ht.built.ordered hn htransparent
      obtain ⟨k', hk', hkind, hslot'⟩ := Grammar.mem_offered_iff.mp hoffered
      obtain rfl : k = k' := by
        have := Grammar.kind?_eq_some_iff.mpr ⟨hk', (hself hkind).symm⟩
        exact Option.some.inj (hk.symm.trans this)
      obtain ⟨target₂, m, hitem₂, hm, hconforms₂⟩ := exists_of_fits_node hfits
      -- a slot for nodes counts, and only one slot does
      have honly₂ : slot' ∈ k.slots.filter b.isEligible :=
        List.mem_filter.mpr ⟨hslot', by simp [isEligible, Slot.isTerminal, hitem₂]⟩
      rw [honly, List.mem_singleton] at honly₂
      subst honly₂
      rw [hitem, Item.node.injEq] at hitem₂
      subst hitem₂
      exact ⟨j, m, target', hj, hm, hlead.1, hconforms₂, hrest⟩

/--
**Schema and tree pass the same.**  Where a node fits the target of a slot, the node that is
seen in its place fits the kind that the target elides to, unless it is dropped.  The
numbers of nodes go up on the way, so the walk ends before its bound does.
-/
theorem WellTyped.elideFrom_eq_ok (ht : b.WellTyped t) (h : b.Disciplined) (hs : Saturated b s)
    (steps : Nat) :
    ∀ {i : NodeId} {n : Node} {target : String}, t.node? i = some n →
      t.nodes.size ≤ i.index + 1 + steps → b.grammar.conforms n.kind target = true →
      b.Elides target effective →
      ∃ j m, b.elideFrom t steps i = .ok j ∧ t.node? j = some m ∧
        m.kind ∉ b.config.transparent ∧
        (m.kind ∉ b.config.dropped → b.grammar.conforms m.kind effective = true) := by
  have hstop : ∀ {i : NodeId} {n : Node} {target : String} (steps : Nat), t.node? i = some n →
      n.kind ∉ b.config.transparent → b.grammar.conforms n.kind target = true →
      b.Elides target effective →
      ∃ j m, b.elideFrom t steps i = .ok j ∧ t.node? j = some m ∧
        m.kind ∉ b.config.transparent ∧
        (m.kind ∉ b.config.dropped → b.grammar.conforms m.kind effective = true) :=
    fun {i n target} steps hn hplain hconforms helides =>
      ⟨i, n, elideFrom_of_plain hn hplain steps, hn, hplain, fun hkept =>
        hs.conforms_effective h (ht.conforms_of_node? hn).known hplain hkept hconforms helides⟩
  induction steps with
  | zero =>
      intro i n target hn hbound hconforms helides
      by_cases htransparent : n.kind ∈ b.config.transparent
      · -- the last node of the tree has no node below it
        obtain ⟨j, m, -, -, hm, hlt, -⟩ := ht.exists_standIn h hn htransparent hconforms helides
        have := Tree.index_lt hm
        omega
      · exact hstop 0 hn htransparent hconforms helides
  | succ steps ih =>
      intro i n target hn hbound hconforms helides
      by_cases htransparent : n.kind ∈ b.config.transparent
      · obtain ⟨j, m, target', hj, hm, hlt, hconforms', hrest⟩ :=
          ht.exists_standIn h hn htransparent hconforms helides
        rw [elideFrom_of_transparent hn htransparent hj]
        exact ih hm (by omega) hconforms' hrest
      · exact hstop (steps + 1) hn htransparent hconforms helides

end Blueprint

end TreeSchema
