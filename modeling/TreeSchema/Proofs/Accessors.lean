/-
What is behind a listed feature.

A schema lists the features of an entity, its own and then those of the entities above it.
A node is read without looking at entities: the slot behind a feature is the nearest of its
name, from the kind of the node upwards.  Both are searches along one lineage, and where the
entity of a kind has a feature, the kind has the slot.  So there is a slot behind every
feature.

The converse fails.  A slot may add nothing to its entity, because it is shadowed, hidden,
ignored, dropped or the label of a terminal, and yet be the nearest.  Then it stands before
the slot that an inherited feature came from, and what is read has its shape.
-/
import TreeSchema.Proofs.Ancestry
import TreeSchema.Proofs.Conforming
import TreeSchema.Proofs.Requests

namespace TreeSchema

/-! ### Blueprints without ambiguity -/

/-- The symbol of a terminal. -/
def Item.symbol? : Item → Option String
  | terminal symbol => some symbol
  | node _ => none

/-- The slots of each kind have names of their own, which the features keep, and all terminals
are known. -/
structure Blueprint.Unambiguous (b : Blueprint) : Prop where
  names : ∀ k ∈ b.grammar.kinds, (k.slots.map Slot.name).Nodup
  symbols : ∀ k ∈ b.grammar.kinds, ∀ slot ∈ k.slots, ∀ symbol ∈ slot.item.symbol?,
    (b.grammar.vocabulary.type? symbol).isSome = true
  /-- No slot is renamed. -/
  plain : ∀ p ∈ b.config.rules.entries, p.2.renames = ∅

/-- The nearest kind, from a kind upwards, that has a slot of the given name, and the slot. -/
def Grammar.nearest? (g : Grammar) (kind name : String) : Option (Kind × Slot) :=
  (g.lineage kind).findSome? fun above =>
    (g.kind? above).bind fun k => (k.slot? name).map (k, ·)

theorem Kind.slot?_eq_some_of_mem {k : Kind} {slot : Slot} (hnames : (k.slots.map Slot.name).Nodup)
    (hslot : slot ∈ k.slots) : k.slot? slot.name = some slot := by
  cases hfound : k.slot? slot.name with
  | none => simpa using List.find?_eq_none.mp hfound slot hslot
  | some other =>
      have hname : other.name = slot.name := by simpa using List.find?_some hfound
      rw [List.inj_on_of_nodup_map hnames (List.mem_of_find?_eq_some hfound) hslot hname]

/-- Without renames a feature is read through the nearest slot of its name. -/
theorem Blueprint.Unambiguous.declaredSlot?_eq {b : Blueprint} (h : b.Unambiguous)
    (kind name : String) :
    b.declaredSlot? kind name = (b.grammar.nearest? kind name).map fun x => (name, x.2) := by
  unfold declaredSlot? Grammar.nearest?
  simp only [Config.slotName_eq h.plain]
  rw [List.map_findSome?]
  congr 1
  funext above
  rw [Function.comp_apply, Option.map_bind, Option.map_bind]
  congr 1
  funext k
  rw [Function.comp_apply, Function.comp_apply, Option.map_map]
  rfl

/-! ### Features and their slots -/

/-- The feature of the given name that the entity of a kind has itself. -/
def Schema.own? (s : Schema) (kind name : String) : Option Feature :=
  (s.idOf? kind).bind fun id => (s.entity? id).bind (·.feature? name)

/-- Looking a feature up goes along the lineage of the kind. -/
theorem Consistent.feature?_eq {b : Blueprint} {s : Schema} (hc : Consistent b s) {kind : String}
    {id : EntityId} (hid : s.idOf? kind = some id) (name : String) :
    s.feature? id name = (b.grammar.lineage kind).findSome? (s.own? · name) := by
  have hall := hc.forall₂_ancestry hid
  unfold Schema.feature?
  generalize b.grammar.lineage kind = kinds at hall ⊢
  generalize s.ancestry id = ids at hall ⊢
  induction hall with
  | nil => rfl
  | @cons k p _ _ hp _ ih =>
      have hown : s.own? k name = (s.entity? p).bind (·.feature? name) := by
        rw [Schema.own?, hp, Option.bind_some]
      rw [List.findSome?_cons, hown, ← ih, List.filterMap_cons]
      cases s.entity? p with
      | none => rfl
      | some e => rw [Option.bind_some, List.findSome?_cons]

/-- A feature declares what a slot holds. -/
structure Slot.Serves (slot : Slot) (f : Feature) : Prop where
  name : f.name = slot.name
  multiplicity : f.multiplicity = .ofArity slot.arity
  node : f.role = .relation → slot.isTerminal = false

namespace Blueprint

variable {b : Blueprint} {s : Schema} {e : Entity} {f : Feature}

/-- A feature of an entity that is not a source position comes from a slot of its kind. -/
theorem Derives.exists_slot (hd : b.Derives s e) (h : b.Unambiguous) (hf : f ∈ e.features)
    (hpos : isPositional f.name = false) :
    ∃ k slot, b.grammar.kind? e.kind = some k ∧ slot ∈ k.slots ∧ slot.Serves f := by
  unfold Entity.features at hf
  rcases List.mem_append.mp hf with hf | hf
  · obtain ⟨k, cs, hk, hdeclares, hcarries⟩ := hd.features
    obtain ⟨r, hr, rfl⟩ := List.mem_map.mp hf
    obtain ⟨l, hl, hrealizes⟩ := exists_of_mem_right hcarries.relations hr
    obtain ⟨slot, hslot, hemits⟩ := hdeclares.exists_slot hl
    obtain ⟨hname, hmultiplicity, target, hitem, -⟩ := hemits.of_relation
    rw [Config.featureName_eq h.plain] at hname
    refine ⟨k, slot, hk, hslot, ?_, ?_, fun _ => ?_⟩
    · exact hrealizes.name.trans hname
    · exact hrealizes.multiplicity.trans hmultiplicity
    · rw [Slot.isTerminal, hitem]
  · obtain ⟨p, hp, rfl⟩ := List.mem_map.mp hf
    rcases hd.position_or_slot hp with ⟨-, hp⟩ | ⟨k, slot, hk, hslot, hemits⟩
    · have hall : ∀ q ∈ positionalProperties, isPositional q.name = true := by decide
      exact absurd (hall p hp) (Bool.eq_false_iff.mp hpos)
    · obtain ⟨hname, hmultiplicity⟩ := hemits.of_property
      rw [Config.featureName_eq h.plain] at hname
      exact ⟨k, slot, hk, hslot, hname, hmultiplicity, nofun⟩

end Blueprint

namespace Finished

variable {b : Blueprint} {s : Schema} {f : Feature} {kind name : String} {id : EntityId}

theorem exists_slot_of_own (h : Finished b s) (hu : b.Unambiguous)
    (hpos : isPositional name = false) (hown : s.own? kind name = some f) :
    ∃ k slot, b.grammar.kind? kind = some k ∧ k.slot? name = some slot ∧ slot.Serves f := by
  obtain ⟨id, hid, hentity⟩ := Option.bind_eq_some_iff.mp hown
  obtain ⟨e, he, hfound⟩ := Option.bind_eq_some_iff.mp hentity
  obtain ⟨e', he', rfl⟩ := h.consistent.idOf?_eq_some_iff.mp hid
  rw [he, Option.some.injEq] at he'
  subst he'
  rw [Entity.feature?_eq_find?] at hfound
  obtain rfl : f.name = name := by simpa using List.find?_some hfound
  obtain ⟨k, slot, hk, hslot, hserves⟩ :=
    (h.derived he).exists_slot hu (List.mem_of_find?_eq_some hfound) hpos
  have hnames := hu.names k (Grammar.kind?_eq_some_iff.mp hk).1
  exact ⟨k, slot, hk, hserves.name ▸ Kind.slot?_eq_some_of_mem hnames hslot, hserves⟩

/-- There is a slot behind every feature.  If the entity of its kind has a feature of that
name, the slot is what the feature came from. -/
theorem exists_nearest (h : Finished b s) (hu : b.Unambiguous) (hid : s.idOf? kind = some id)
    (hf : f ∈ s.features id) (hpos : isPositional f.name = false) :
    ∃ k slot, b.grammar.nearest? kind f.name = some (k, slot) ∧ k ∈ b.grammar.kinds ∧
      slot ∈ k.slots ∧ ((s.own? k.name f.name).isSome = true → slot.Serves f) := by
  have hfound : (b.grammar.lineage kind).findSome? (s.own? · f.name) = some f := by
    rw [← h.consistent.feature?_eq hid]
    exact Schema.feature?_eq_some_iff.mpr ⟨hf, rfl⟩
  obtain ⟨near, above, far, hlineage, hown, -⟩ := List.findSome?_eq_some_iff.mp hfound
  obtain ⟨k₀, slot₀, hk₀, hslot₀, -⟩ := h.exists_slot_of_own hu hpos hown
  cases hnearest : b.grammar.nearest? kind f.name with
  | none =>
      have hnone := List.findSome?_eq_none_iff.mp hnearest above (by simp [hlineage])
      simp [hk₀, hslot₀] at hnone
  | some x =>
      obtain ⟨k, slot⟩ := x
      obtain ⟨near', holder, far', hlineage', hholder, hbefore⟩ :=
        List.findSome?_eq_some_iff.mp hnearest
      obtain ⟨k', hk', hx⟩ := Option.bind_eq_some_iff.mp hholder
      obtain ⟨slot', hslot', hx⟩ := Option.map_eq_some_iff.mp hx
      cases hx
      obtain ⟨hk, hname⟩ := Grammar.kind?_eq_some_iff.mp hk'
      refine ⟨k, slot, rfl, hk, List.mem_of_find?_eq_some hslot', fun hsome => ?_⟩
      obtain ⟨g, hg⟩ := Option.isSome_iff_exists.mp hsome
      rw [hname] at hg
      -- no kind before the holder has a feature of the name, for it would have the slot
      have hfirst : (b.grammar.lineage kind).findSome? (s.own? · f.name) = some g := by
        refine List.findSome?_eq_some_iff.mpr ⟨near', holder, far', hlineage', hg, ?_⟩
        intro other hother
        by_contra hne
        obtain ⟨g', hg'⟩ := Option.ne_none_iff_exists'.mp hne
        obtain ⟨k₁, slot₁, hk₁, hslot₁, -⟩ := h.exists_slot_of_own hu hpos hg'
        have hnone := hbefore other hother
        simp [hk₁, hslot₁] at hnone
      rw [hfound, Option.some.injEq] at hfirst
      subst hfirst
      obtain ⟨k₁, slot₁, hk₁, hslot₁, hserves⟩ := h.exists_slot_of_own hu hpos hg
      rw [hk', Option.some.injEq] at hk₁
      subst hk₁
      rw [hslot', Option.some.injEq] at hslot₁
      exact hslot₁ ▸ hserves

end Finished

/-! ### What is read from a node -/

/-- A child is not in the tree, as the error says. -/
def Tree.Lacks (t : Tree) : Child → Error → Prop
  | .node id, e => t.node id = .error e
  | .token id, e => t.token id = .error e

/-- Only nodes are held. -/
def Filling.OnlyNodes (x : Filling) : Prop := ∀ c ∈ x.toList, ∃ id, c = .node id

/-- A filling has the shape that a feature declares. -/
structure Filling.Shows (x : Filling) (f : Feature) : Prop where
  multiplicity : .ofArity x.arity = f.multiplicity
  nodes : f.role = .relation → x.OnlyNodes

namespace Blueprint

variable {b : Blueprint} {t : Tree} {n : Node} {name : String} {slot : Slot} {c : Child}
  {e : Error}

theorem lacks_of_isNodeOf_eq_error {target : String} (h : b.isNodeOf t target c = .error e) :
    t.Lacks c e := by
  cases c with
  | token id => cases h
  | node id =>
      rcases bind_eq_error_iff.mp h with h | ⟨_, -, h⟩
      · exact map_eq_error_iff.mp h
      · cases h

theorem exists_node_of_isNodeOf {target : String} (h : b.isNodeOf t target c = .ok true) :
    ∃ id, c = .node id := by
  cases c with
  | token id => cases h
  | node id => exact ⟨id, rfl⟩

theorem lacks_of_isTokenOf_eq_error {type : Int} (h : isTokenOf t type c = .error e) :
    t.Lacks c e := by
  cases c with
  | node id => cases h
  | token id =>
      rcases bind_eq_error_iff.mp h with h | ⟨_, -, h⟩
      · exact h
      · cases h

/-- Looking through the children of a node fails only at one that is not in the tree. -/
theorem fitting_failed (hsymbol : ∀ symbol ∈ slot.item.symbol?,
    (b.grammar.vocabulary.type? symbol).isSome = true) (h : b.fitting t n name slot = .error e) :
    ∃ c ∈ n.children, t.Lacks c e := by
  unfold fitting at h
  cases hitem : slot.item with
  | node target =>
      rw [hitem] at h
      obtain ⟨c, hc, htest⟩ := filterM_failed h
      exact ⟨c, hc, lacks_of_isNodeOf_eq_error htest⟩
  | terminal symbol =>
      obtain ⟨type, htype⟩ := Option.isSome_iff_exists.mp (hsymbol symbol (by rw [hitem]; rfl))
      simp only [hitem, htype] at h
      obtain ⟨c, hc, htest⟩ := filterM_failed h
      exact ⟨c, hc, lacks_of_isTokenOf_eq_error htest⟩

/-- A slot for nodes is filled with nodes. -/
theorem exists_node_of_mem_fitting {cs : List Child} (hnode : slot.isTerminal = false)
    (h : b.fitting t n name slot = .ok cs) (hc : c ∈ cs) : ∃ id, c = .node id := by
  unfold fitting at h
  unfold Slot.isTerminal at hnode
  cases hitem : slot.item with
  | terminal symbol => simp [hitem] at hnode
  | node target =>
      rw [hitem] at h
      exact exists_node_of_isNodeOf ((filterM_passed h).2 c hc)

/-- Where nothing is bound, a slot holds what its arity and its item say, unless a child is
missing. -/
theorem filling_of_nearest (hu : b.Unambiguous) {i : NodeId} (hn : t.node? i = some n)
    (hbindings : n.bindings = ∅) {k : Kind} (hk : k ∈ b.grammar.kinds) (hslot : slot ∈ k.slots)
    (hnearest : b.grammar.nearest? n.kind name = some (k, slot)) :
    (∀ e, b.filling t i name = .error e → ∃ c ∈ n.children, t.Lacks c e) ∧
      ∀ x, b.filling t i name = .ok x →
        x.arity = slot.arity ∧ (slot.isTerminal = false → x.OnlyNodes) := by
  have hdeclared : b.declaredSlot? n.kind name = some (name, slot) := by
    rw [hu.declaredSlot?_eq, hnearest]
    rfl
  rw [filling_eq hn hdeclared, hbindings]
  show (∀ e, ite _ _ _ = _ → _) ∧ ∀ x, ite _ _ _ = _ → _
  by_cases hdefault : slot.isDefault = true
  · simp only [if_pos hdefault]
    cases hfitting : b.fitting t n name slot with
    | error err =>
        refine ⟨fun e he => ?_, nofun⟩
        cases he
        exact fitting_failed (hu.symbols k hk slot hslot) hfitting
    | ok cs =>
        refine ⟨nofun, fun x hx => ?_⟩
        cases hx
        refine ⟨Filling.arity_ofFound .., fun hnode c hc => ?_⟩
        exact exists_node_of_mem_fitting hnode hfitting (Filling.mem_of_mem_ofFound hc)
  · simp only [if_neg hdefault]
    refine ⟨nofun, fun x hx => ?_⟩
    cases hx
    cases slot.arity with
    | single => exact ⟨rfl, fun _ c hc => by cases hc⟩
    | multi => exact ⟨rfl, fun _ c hc => by cases hc⟩

end Blueprint

/--
**There is a slot behind every feature.**  Once a kind has its entity, a feature that the
entity lists, other than a source position, can be read from any node of the kind that binds
nothing, unless a child of the node is missing from the tree.  It is read through the nearest
slot of its name: single or as a list as the slot says, and nodes only if the slot is for
nodes.  If the entity of the kind that has this slot has a feature of the name, then that is
just the shape that the feature declares.
-/
theorem listed_feature_readable (b : Blueprint) (requests : List Request) (hu : b.Unambiguous)
    {kind : String} {id : EntityId} {s : Schema}
    (hget : b.entityId kind (b.served requests) = .ok id s) {t : Tree} {i : NodeId} {n : Node}
    (hn : t.node? i = some n) (hkind : n.kind = kind) (hbindings : n.bindings = ∅) {f : Feature}
    (hf : f ∈ s.features id) (hpos : isPositional f.name = false) :
    ∃ k slot, b.grammar.nearest? kind f.name = some (k, slot) ∧
      (∀ e, b.filling t i f.name = .error e → ∃ c ∈ n.children, t.Lacks c e) ∧
      ∀ x, b.filling t i f.name = .ok x →
        x.arity = slot.arity ∧ (slot.isTerminal = false → x.OnlyNodes) ∧
        ((s.own? k.name f.name).isSome = true → x.Shows f) := by
  obtain ⟨hfinished, -, hid⟩ := ((b.finished_served requests).ends_entityId kind).of_ok hget
  obtain ⟨k, slot, hnearest, hk, hslot, hserves⟩ := hfinished.exists_nearest hu hid hf hpos
  subst hkind
  obtain ⟨hfailed, hread⟩ := b.filling_of_nearest hu hn hbindings hk hslot hnearest
  refine ⟨k, slot, hnearest, hfailed, fun x hx => ?_⟩
  obtain ⟨harity, hnodes⟩ := hread x hx
  refine ⟨harity, hnodes, fun hown => ⟨?_, fun hrole => ?_⟩⟩
  · rw [harity, (hserves hown).multiplicity]
  · exact hnodes ((hserves hown).node hrole)

/-- A call of `f` in the language with calls. -/
def callTree : Tree where
  nodes := #[⟨"Call", none, [.token ⟨0⟩], some ⟨0⟩, some ⟨0⟩, ∅⟩]
  tokens := #[⟨2, "f", 1, 0, 0, 1, 0⟩]
  root := some ⟨0⟩

/-- The line break of a statement is read from a call, which has no slot for it itself. -/
theorem listed_feature_readable_call :
    ∃ x, calls.filling callTree ⟨0⟩ "NEWLINE" = .ok x ∧
      x.Shows (.property ⟨"NEWLINE", .string, .one⟩) := by
  have hu : calls.Unambiguous := by constructor <;> decide +kernel
  have hget : calls.entityId "Call" (calls.served [])
      = .ok ⟨1⟩ (calls.served [.entityId "Call"]) := by decide +kernel
  obtain ⟨k, slot, hnearest, -, hread⟩ := listed_feature_readable calls [] hu hget
    (t := callTree) (i := ⟨0⟩) rfl rfl rfl (f := .property ⟨"NEWLINE", .string, .one⟩)
    (by decide +kernel) (by decide)
  have hstmt : calls.grammar.nearest? "Call" "NEWLINE"
      = some (⟨"Stmt", some "Node", [.ofItem (.terminal "NEWLINE") .single]⟩,
        .ofItem (.terminal "NEWLINE") .single) := by decide +kernel
  rw [show Feature.name (.property ⟨"NEWLINE", .string, .one⟩) = "NEWLINE" from rfl, hstmt,
    Option.some.injEq, Prod.mk.injEq] at hnearest
  obtain ⟨rfl, rfl⟩ := hnearest
  have hx : calls.filling callTree ⟨0⟩ "NEWLINE" = .ok (.one none) := by decide +kernel
  exact ⟨_, hx, (hread _ hx).2.2 (by decide +kernel)⟩

/-- A language in which a list without items is written as a token, whose name is the one that
lists have for their items. -/
def emptyLists : Blueprint where
  grammar := .ofParts "lists" none
    [⟨"List", none, [.ofItem (.node "Item") .multi]⟩,
     ⟨"EmptyList", some "List", [.ofItem (.terminal "item") .single]⟩,
     ⟨"Item", none, []⟩]
    [("item", 1)]
  config := Config.standard.ignoreToken "item"
  ignoredTypes := [1]
  known := by decide +kernel

/-- A list without items. -/
def emptyListTree : Tree where
  nodes := #[⟨"EmptyList", none, [.token ⟨0⟩], some ⟨0⟩, some ⟨0⟩, ∅⟩]
  tokens := #[⟨1, "nil", 1, 0, 0, 3, 0⟩]
  root := some ⟨0⟩

/-- A block of a statement that is not in the tree. -/
def danglingTree : Tree where
  nodes := #[⟨"Block", none, [.node ⟨1⟩], none, none, ∅⟩]
  tokens := #[]
  root := some ⟨0⟩

/-- An empty list inherits a relation to its items, and what is read is a single token.  A block
lists its statements, and reading them fails at the one that is missing. -/
theorem listed_feature_masked :
    (emptyLists.Unambiguous ∧ ∃ id s f x,
      emptyLists.entityId "EmptyList" (emptyLists.served []) = .ok id s ∧
        (emptyListTree.node? ⟨0⟩).map Node.kind = some "EmptyList" ∧
        (emptyListTree.node? ⟨0⟩).map Node.bindings = some ∅ ∧
        f ∈ s.features id ∧ isPositional f.name = false ∧ f.role = .relation ∧
        f.multiplicity = .many ∧ emptyLists.filling emptyListTree ⟨0⟩ f.name = .ok x ∧
        x.arity = .single ∧ ¬ x.OnlyNodes) ∧
      calls.Unambiguous ∧ ∃ id s f,
        calls.entityId "Block" (calls.served []) = .ok id s ∧
          (danglingTree.node? ⟨0⟩).map Node.kind = some "Block" ∧
          (danglingTree.node? ⟨0⟩).map Node.bindings = some ∅ ∧
          f ∈ s.features id ∧ isPositional f.name = false ∧
          calls.filling danglingTree ⟨0⟩ f.name = .error (.noNode 1) := by
  refine ⟨⟨by constructor <;> decide +kernel, ⟨2⟩,
      emptyLists.served [.entityId "EmptyList"],
      .relation ⟨"item", .containment, .many, ⟨0⟩, ⟨1⟩⟩, .one (some (.token ⟨0⟩)),
      by decide +kernel, by decide +kernel, by decide +kernel, by decide +kernel, by decide,
      rfl, rfl, by decide +kernel, rfl, ?_⟩,
    by constructor <;> decide +kernel, ⟨0⟩, calls.served [.entityId "Block"],
    .relation ⟨"stmt", .containment, .many, ⟨0⟩, ⟨1⟩⟩, by decide +kernel, by decide +kernel,
    by decide +kernel, by decide +kernel, by decide, by decide +kernel⟩
  intro hnodes
  obtain ⟨id, h⟩ := hnodes (.token ⟨0⟩) List.mem_cons_self
  cases h

end TreeSchema
