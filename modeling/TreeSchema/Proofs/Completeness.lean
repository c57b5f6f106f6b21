/-
No child is lost.

On its way from a node to the children of its element a child can get lost in many places.  Its
slot may be passed over when the entity of the kind is made, or be hidden by a feature of the same
name that comes before; what is found for a slot that holds one child is only the first; and the
node that stands in for the child may be dropped.  Where the slots of a kind and of those above it
have different names, and those for nodes are default accessors for different kinds, only the last
of these can happen.  Such slots are clear: none is passed over, a slot that is mapped to a relation
is behind a relation of its name, and every relation is read through the slot that it comes from.

So if nothing is bound at a node, a relation leads to all children that match its slot, in their
order, and all children of the element are these, relation by relation.
-/
import TreeSchema.Proofs.Datatypes
import TreeSchema.Proofs.Gathering

namespace TreeSchema

/-! ### Clear slots -/

/-- The slots of a kind, own and inherited, have different names, and those for nodes are default
accessors for different kinds. -/
structure Grammar.Clear (g : Grammar) (kind : String) : Prop where
  names : ((g.offered kind).map Slot.name).Nodup
  default : ∀ slot ∈ g.offered kind, slot.isTerminal = false → slot.accessor = .default
  targets : ((g.offered kind).filterMap Slot.target?).Nodup

namespace Grammar.Clear

variable {g : Grammar} {kind : String} {k : Kind} {slot slot' : Slot}

theorem slot_unique (h : g.Clear kind) (hslot : slot ∈ g.offered kind)
    (hslot' : slot' ∈ g.offered kind) (hname : slot.name = slot'.name) : slot = slot' :=
  List.inj_on_of_nodup_map h.names hslot hslot' hname

/-- No slot shares its target with another. -/
theorem not_shadowed (h : g.Clear kind) (hk : k ∈ g.kinds) (hkind : g.conforms kind k.name = true)
    (slot : Slot) : ¬ k.Shadowed slot := by
  intro hshadowed
  obtain ⟨-, target, -, htwo⟩ := hshadowed
  have hslots : k.slots.Sublist (g.offered kind) :=
    List.sublist_flatten_of_mem (List.mem_map_of_mem (List.mem_filter.mpr ⟨hk, hkind⟩))
  have hone := List.nodup_iff_count_le_one.mp (h.targets.sublist (hslots.filterMap _)) target
  have hcount : (k.slots.filterMap Slot.target?).count target =
      k.slots.countP (·.item = .node target) := by
    rw [List.count_filterMap]
    refine List.countP_congr fun s _ => ?_
    rw [beq_iff_eq, decide_eq_true_iff, Blueprint.target?_eq_some_iff]
  omega

end Grammar.Clear

/-! ### What is listed -/

namespace Blueprint

variable {b : Blueprint} {s : Schema} {e : Entity} {k : Kind} {kind kind' : String} {slot : Slot}

/-- A slot of a kind, own or inherited, is mapped to a relation. -/
def Relates (b : Blueprint) (kind : String) (slot : Slot) (l : Link) : Prop :=
  ∃ k ∈ b.grammar.kinds, b.grammar.conforms kind k.name = true ∧ slot ∈ k.slots ∧
    b.contribution k.name slot = .ok (.relation l.name l.multiplicity l.target)

/-- A slot gives text or nodes, whatever kind it is looked at in. -/
theorem Emits.not_relation {p : Property} {l : Link} (h : b.Emits kind slot (.property p)) :
    ¬ b.Emits kind' slot (.relation l.name l.multiplicity l.target) := by
  intro h'
  obtain ⟨-, -, target, hitem, helides, hnode⟩ := h'.of_relation
  cases h with
  | text htext => exact hnode ((isText_node_iff hitem helides).mp htext)

/-- What an entity has a relation for if its kind does not pass the slot over. -/
theorem Derives.exists_relation {l : Link} (hd : b.Derives s e)
    (hk : b.grammar.kind? e.kind = some k) (hslot : slot ∈ k.slots) (hplain : ¬ k.Shadowed slot)
    (hemits : b.Emits k.name slot (.relation l.name l.multiplicity l.target)) :
    ∃ r ∈ e.relations, r.name = l.name := by
  obtain ⟨k', cs, hk', hdeclares, hcarries⟩ := hd.features
  obtain rfl := Option.some.inj (hk.symm.trans hk')
  obtain ⟨walked, forced, rfl, hwalked, -⟩ := hdeclares
  obtain ⟨c, hc, hwalks⟩ := exists_of_mem_left hwalked hslot
  have hcl : c.link? = some l := by
    cases hwalks with
    | shadowed h => exact absurd h hplain
    | tokenLabel h =>
        obtain ⟨-, -, target, hitem, -⟩ := hemits.of_relation
        obtain ⟨-, symbol, hterminal⟩ := h
        cases hitem.symm.trans hterminal
    | emitted _ _ h => rw [h.unique hemits]; rfl
  have hl : l ∈ (walked ++ forced).filterMap Contribution.link? :=
    List.mem_filterMap.mpr ⟨c, List.mem_append_left _ hc, hcl⟩
  obtain ⟨r, hr, hrealizes⟩ := exists_of_mem_left hcarries.relations hl
  exact ⟨r, hr, hrealizes.name⟩

end Blueprint

namespace Schema

variable {s : Schema} {id p : EntityId} {e : Entity} {f : Feature}

/-- Of a feature that an entity above has, one of the name is listed. -/
theorem exists_mem_features (hp : p ∈ s.ancestry id) (he : s.entity? p = some e)
    (hf : f ∈ e.features) : ∃ g ∈ s.features id, g.name = f.name := by
  have hall : f ∈ ((s.ancestry id).filterMap s.entity?).flatMap Entity.features :=
    List.mem_flatMap.mpr ⟨e, List.mem_filterMap.mpr ⟨p, hp, he⟩, hf⟩
  have hsome : (List.find? (·.name = f.name)
      (((s.ancestry id).filterMap s.entity?).flatMap Entity.features)).isSome = true :=
    List.find?_isSome.mpr ⟨f, hall, by simp⟩
  obtain ⟨g, hg⟩ := Option.isSome_iff_exists.mp hsome
  have hname : g.name = f.name := by simpa using List.find?_some hg
  exact ⟨g, mem_firstOfEachName_iff.mpr (hname ▸ hg), hname⟩

end Schema

namespace Finished

variable {b : Blueprint} {s : Schema} {kind : String} {id : EntityId} {slot : Slot} {r : Relation}

/-- A property that an entity lists is a source position, if those are wanted, or the text of a slot
of a kind above. -/
theorem position_or_slot (h : Finished b s) (hid : s.idOf? kind = some id) {p : Property}
    (hp : .property p ∈ s.features id) :
    b.config.positions = true ∧ p ∈ positionalProperties ∨
      ∃ k slot, slot ∈ b.grammar.offered kind ∧ b.Emits k slot (.property p) := by
  obtain ⟨i, e, hi, he, hmem⟩ := Schema.exists_entity_of_mem_features hp
  obtain ⟨ancestor, hconforms, hancestor⟩ := (h.consistent.mem_ancestry_iff hid).mp hi
  obtain ⟨e', he', rfl⟩ := h.consistent.idOf?_eq_some_iff.mp hancestor
  obtain rfl := Option.some.inj (he.symm.trans he')
  have hown : p ∈ e.properties := by simpa [Entity.features] using hmem
  refine ((h.derived he).position_or_slot hown).imp_right fun htext => ?_
  obtain ⟨k, slot, hk, hslot, hemits⟩ := htext
  obtain ⟨hmem, hname⟩ := Grammar.kind?_eq_some_iff.mp hk
  exact ⟨k.name, slot, Grammar.mem_offered_iff.mpr ⟨k, hmem, hname ▸ hconforms, hslot⟩, hemits⟩

/-- Where source positions are wanted no relation of an entity has the name of one. -/
theorem ne_position (h : Finished b s) {e : Entity} (he : s.entity? id = some e)
    (hr : r ∈ e.relations) (hwanted : b.config.positions = true) {p : Property}
    (hp : p ∈ positionalProperties) : r.name ≠ p.name := by
  obtain ⟨k, cs, -, -, hcarries⟩ := (h.derived he).features
  have hown : p ∈ e.properties := by
    rw [hcarries.properties, if_pos hwanted]
    exact List.mem_append_left _ hp
  have hnames := h.consistent.names he
  rw [Entity.features, List.map_append, List.map_map, List.map_map] at hnames
  exact (List.nodup_append.mp hnames).2.2 _ (List.mem_map_of_mem hr) _ (List.mem_map_of_mem hown)

variable (h : Finished b s) (hclear : b.grammar.Clear kind)
  (hplain : ∀ p ∈ b.config.rules.entries, p.2.renames = ∅) (hid : s.idOf? kind = some id)

include h hclear hplain hid

/-- A clear slot that is mapped to a relation is behind a relation that is listed under its name. -/
theorem exists_mem_relations {l : Link} (hrelates : b.Relates kind slot l) :
    ∃ r ∈ s.relations id, r.name = slot.name := by
  obtain ⟨k, hk, hkind, hslot, hcontribution⟩ := hrelates
  have hemits := Blueprint.contribution_eq_ok_iff.mp hcontribution
  have hname := hemits.of_relation.1
  rw [Config.featureName_eq hplain] at hname
  obtain ⟨p, hp, -⟩ := h.consistent.exists_ancestor hid (Grammar.conforms_iff.mp hkind)
  obtain ⟨e, he, hekind⟩ := h.consistent.idOf?_eq_some_iff.mp hp
  have hknown := Grammar.kind?_eq_some_iff.mpr ⟨hk, hekind.symm⟩
  obtain ⟨r, hr, hrname⟩ := (h.derived he).exists_relation hknown hslot
    (hclear.not_shadowed hk hkind slot) hemits
  have hancestor := (h.consistent.mem_ancestry_iff hid).mpr ⟨k.name, hkind, hp⟩
  obtain ⟨f, hf, hfname⟩ := Schema.exists_mem_features hancestor he
    (f := .relation r) (by simpa [Entity.features] using hr)
  have hslotname : f.name = slot.name := hfname.trans (hrname.trans hname)
  cases f with
  | relation r' => exact ⟨r', Schema.mem_relations_iff.mpr hf, hslotname⟩
  | property p =>
      -- neither a source position nor the text of a slot has the name
      rcases h.position_or_slot hid hf with ⟨hwanted, hposition⟩ | ⟨kind', slot', hoffered, htext⟩
      · exact absurd hfname.symm (h.ne_position he hr hwanted hposition)
      · have hsame : slot' = slot := by
          refine hclear.slot_unique hoffered
            (Grammar.mem_offered_iff.mpr ⟨k, hk, hkind, hslot⟩) ?_
          rw [← hslotname, ← Config.featureName_eq hplain kind' slot'.name]
          exact htext.of_property.1.symm
        exact absurd hemits (hsame ▸ htext).not_relation

end Finished

/-! ### What is read -/

namespace Blueprint

variable {b : Blueprint} {s : Schema} {t : Tree} {kind : String} {slot : Slot} {i : NodeId}

/-- A slot of a kind, own or inherited, is mapped to a relation of a schema. -/
def Maps (b : Blueprint) (s : Schema) (kind : String) (slot : Slot) (r : Relation) : Prop :=
  ∃ target, b.Relates kind slot ⟨r.name, r.multiplicity, target⟩ ∧ s.idOf? target = some r.target

theorem Relates.mem_offered {l : Link} (h : b.Relates kind slot l) :
    slot ∈ b.grammar.offered kind := by
  obtain ⟨k, hk, hkind, hslot, -⟩ := h
  exact Grammar.mem_offered_iff.mpr ⟨k, hk, hkind, hslot⟩

theorem Relates.of_contribution {l : Link} (h : b.Relates kind slot l)
    (hplain : ∀ p ∈ b.config.rules.entries, p.2.renames = ∅) :
    l.name = slot.name ∧ ∃ target, slot.item = .node target := by
  obtain ⟨k, -, -, -, hcontribution⟩ := h
  obtain ⟨hname, -, target, hitem, -⟩ := (contribution_eq_ok_iff.mp hcontribution).of_relation
  rw [Config.featureName_eq hplain] at hname
  exact ⟨hname, target, hitem⟩

/-- A child that is kept gives way to some node, which is what it is seen as unless it is
dropped. -/
theorem exists_of_kept? {k : Option NodeId} (h : b.kept? t i = .ok k) :
    ∃ j m, b.elide t i = .ok j ∧ t.node? j = some m ∧
      (m.kind ∉ b.config.dropped → k = some j) := by
  obtain ⟨j, hj, hrest⟩ := bind_eq_ok_iff.mp h
  obtain ⟨kind, hkind, -⟩ := bind_eq_ok_iff.mp hrest
  obtain ⟨m, hm, rfl⟩ := map_eq_ok_iff.mp hkind
  rw [Tree.node_eq_ok_iff] at hm
  refine ⟨j, m, hj, hm, fun hdropped => ?_⟩
  rw [View.kept?_eq_ok hj hm] at h
  simpa [Config.isDropped, hdropped] using h.symm

end Blueprint

namespace View

variable {v : View} {s s' : Schema} {e : Element} {n : Node} {ds : List Element} {slot : Slot}
  {r : Relation}

/-- The children of a node that match a slot. -/
def matching (v : View) (n : Node) (slot : Slot) : List Child :=
  n.children.filter fun c => v.blueprint.Fits v.tree slot.item c

/-- A node that all children can be read from: it binds nothing, its slots are clear and go by their
names, and no slot for one node has more than one match. -/
structure Legible (v : View) (n : Node) : Prop where
  unbound : n.bindings = ∅
  plain : ∀ p ∈ v.blueprint.config.rules.entries, p.2.renames = ∅
  slots : v.blueprint.grammar.Clear n.kind
  single : ∀ slot ∈ v.blueprint.grammar.offered n.kind, slot.isTerminal = false →
    slot.arity = .single → (v.matching n slot).length ≤ 1

/-- Nothing is lost among all children of an element. -/
structure Complete (v : View) (s : Schema) (e : Element) (n : Node) (ds : List Element) : Prop where
  /-- A child that matches a slot which is mapped to a relation gives way to some node, and that is
  the node of an element unless it is dropped. -/
  kept : ∀ slot l, v.blueprint.Relates n.kind slot l → ∀ i, .node i ∈ v.matching n slot →
    ∃ j m, v.blueprint.elide v.tree i = .ok j ∧ v.tree.node? j = some m ∧
      (m.kind ∉ v.blueprint.config.dropped → ∃ d ∈ ds, d.node = j)
  /-- Relation by relation, the elements are what the children that match its slot are seen as. -/
  rows : ∃ slots, List.Forall₂ (v.blueprint.Maps s n.kind) slots (s.relations e.entity) ∧
    ds.map Element.node = slots.flatMap fun slot => (v.matching n slot).filterMap v.seenAs?

section Legible

variable (hs : Finished v.blueprint s) (hn : v.tree.node? e.node = some n)
  (hid : s.idOf? n.kind = some e.entity) (h : v.Legible n)

include hn h

/-- A slot for nodes holds all children that match it. -/
theorem Legible.toList_eq (hslot : slot ∈ v.blueprint.grammar.offered n.kind) {target : String}
    (hitem : slot.item = .node target) {x : Filling} (hx : v.filling e slot.name = .ok x) :
    x.toList = v.matching n slot := by
  have hdeclared : v.blueprint.declaredSlot? n.kind slot.name = some (slot.name, slot) :=
    Blueprint.declaredSlot?_eq_of_unique h.plain hslot fun _ hslot' hname =>
      h.slots.slot_unique hslot' hslot hname
  have hnode : slot.isTerminal = false := by rw [Slot.isTerminal, hitem]
  have hdefault : slot.isDefault = true := decide_eq_true (h.slots.default slot hslot hnode)
  rw [filling, Blueprint.filling_eq hn hdeclared, h.unbound] at hx
  change ite _ _ _ = _ at hx
  rw [if_pos hdefault] at hx
  obtain ⟨cs, hcs, rfl⟩ := map_eq_ok_iff.mp hx
  obtain rfl : cs = v.matching n slot := Blueprint.eq_filter_of_fitting hitem hcs
  cases harity : slot.arity with
  | multi => rfl
  | single =>
      have hone := h.single slot hslot hnode harity
      generalize v.matching n slot = cs at hone
      cases cs with
      | nil => rfl
      | cons c cs =>
          obtain rfl : cs = [] := by simpa using hone
          rfl

include hs hid

/-- Behind a relation that is listed are the children that match the slot which is mapped to it. -/
theorem Legible.exists_slot (hr : r ∈ s.relations e.entity) {x : Filling}
    (hx : v.filling e r.name = .ok x) :
    ∃ slot, v.blueprint.Maps s n.kind slot r ∧ slot.name = r.name ∧
      x.toList = v.matching n slot := by
  obtain ⟨k, hk, hkind, slot, hslot, target, hemits, htarget⟩ :=
    hs.exists_slot hid (Schema.mem_relations_iff.mp hr)
  have hrelates : v.blueprint.Relates n.kind slot ⟨r.name, r.multiplicity, target⟩ :=
    ⟨k, hk, hkind, hslot, Blueprint.contribution_eq_ok_iff.mpr hemits⟩
  obtain ⟨hname, item, hitem⟩ := hrelates.of_contribution h.plain
  refine ⟨slot, ⟨target, hrelates, htarget⟩, hname.symm, ?_⟩
  exact h.toList_eq hn hrelates.mem_offered hitem (hname ▸ hx)

/-- All children are those that match a slot, relation by relation. -/
theorem Legible.rows (hgathered : v.Gathered s e ds) :
    ∃ slots, List.Forall₂ (v.blueprint.Maps s n.kind) slots (s.relations e.entity) ∧
      ds.map Element.node = slots.flatMap fun slot => (v.matching n slot).filterMap v.seenAs? := by
  have hshown : ∀ r ∈ s.relations e.entity, ∃ slot, v.blueprint.Maps s n.kind slot r ∧
      v.shown e r = (v.matching n slot).filterMap v.seenAs? := by
    intro r hr
    obtain ⟨x, hx, -⟩ := hgathered.read r hr
    obtain ⟨slot, hmaps, -, hmatching⟩ := h.exists_slot hs hn hid hr hx
    refine ⟨slot, hmaps, ?_⟩
    rw [shown, held, Feature.name, hx, ← hmatching]
    rfl
  rw [hgathered.nodes]
  generalize s.relations e.entity = rs at hshown
  induction rs with
  | nil => exact ⟨[], .nil, rfl⟩
  | cons r rs ih =>
      obtain ⟨slot, hmaps, hrow⟩ := hshown r List.mem_cons_self
      obtain ⟨slots, hslots, hrows⟩ := ih fun r' hr' => hshown r' (List.mem_cons_of_mem _ hr')
      refine ⟨slot :: slots, .cons hmaps hslots, ?_⟩
      rw [List.flatMap_cons, List.flatMap_cons, hrow, hrows]

/-- A child that matches a slot which is mapped to a relation is seen, unless it is dropped. -/
theorem Legible.kept (hgathered : v.Gathered s e ds) {l : Link}
    (hrelates : v.blueprint.Relates n.kind slot l) {i : NodeId} (hi : .node i ∈ v.matching n slot) :
    ∃ j m, v.blueprint.elide v.tree i = .ok j ∧ v.tree.node? j = some m ∧
      (m.kind ∉ v.blueprint.config.dropped → ∃ d ∈ ds, d.node = j) := by
  obtain ⟨r, hr, hname⟩ := hs.exists_mem_relations h.slots h.plain hid hrelates
  obtain ⟨x, hx, hread⟩ := hgathered.read r hr
  obtain ⟨slot', hmaps, hname', hmatching⟩ := h.exists_slot hs hn hid hr hx
  -- the relation is read through the slot itself, for no other has its name
  obtain ⟨target, hrelates', -⟩ := hmaps
  obtain rfl := h.slots.slot_unique hrelates'.mem_offered hrelates.mem_offered (hname'.trans hname)
  rw [← hmatching] at hi
  obtain ⟨i', k, hi', hkept⟩ := hread _ hi
  cases hi'
  obtain ⟨j, m, hj, hm, hseen⟩ := Blueprint.exists_of_kept? hkept
  refine ⟨j, m, hj, hm, fun hdropped => ?_⟩
  rw [hseen hdropped] at hkept
  have hshown : j ∈ v.shown e r := by
    rw [shown, held, Feature.name, hx]
    exact List.mem_filterMap.mpr ⟨.node i, hi, seenAs?_eq_some_iff.mpr ⟨i, rfl, hkept⟩⟩
  have hmem : j ∈ ds.map Element.node := by
    rw [hgathered.nodes]
    exact List.mem_flatMap.mpr ⟨r, hr, hshown⟩
  exact List.mem_map.mp hmem

end Legible

end View

/--
**No child is lost.**  Let an element have the entity of its kind, and let nothing be bound at its
node.  Let the slots of its kind, own and inherited, have different names, by which the features go,
let those for nodes be default accessors for different kinds, and let none of those that hold one
node match more than one child.  If all children of the element can be got then each child of the
node that matches a slot which is mapped to a relation is there, by the node that is seen in its
place, unless that is dropped; and what is there are these nodes, relation by relation, and for each
relation in the order of the children.
-/
theorem allChildren_complete (v : View) (before : List Call) {e : Element} {n : Node}
    (hn : v.tree.node? e.node = some n)
    (hid : (v.blueprint.session before).schema.idOf? n.kind = some e.entity)
    (hlegible : v.Legible n) {ds : List Element} {s : Schema}
    (h : v.allChildren e (v.blueprint.session before).schema = .ok ds s) :
    v.Complete (v.blueprint.session before).schema e n ds := by
  have hs := (Session.Holds.session v.blueprint before).finished
  have hgathered := (View.ends_allChildren_gathered e _).of_ok h
  refine ⟨?_, hlegible.rows hs hn hid hgathered⟩
  intro slot l hrelates i hi
  exact hlegible.kept hs hn hid hgathered hrelates hi

namespace View

/-- The node of the outer call. -/
def outerNode : Node := ⟨"Call", some ⟨0⟩, [.token ⟨0⟩, .node ⟨2⟩], some ⟨0⟩, some ⟨2⟩, ∅⟩

/-- The argument of the outer call is transparent, and what there is in its place is the expression
in it. -/
theorem allChildren_complete_outerCall :
    callView.tree.node? outerCall.node = some outerNode ∧ callView.Legible outerNode ∧
      callView.Complete (calls.session (innerCalls.take 2)).schema outerCall outerNode
        [argument] := by
  have hn : callView.tree.node? outerCall.node = some outerNode := by decide +kernel
  have hid : (calls.session (innerCalls.take 2)).schema.idOf? outerNode.kind =
      some outerCall.entity := by decide +kernel
  have hslots : callView.blueprint.grammar.Clear outerNode.kind := by
    constructor <;> decide +kernel
  have hlegible : callView.Legible outerNode :=
    ⟨rfl, by decide +kernel, hslots, by decide +kernel⟩
  have hall : callView.allChildren outerCall (calls.session (innerCalls.take 2)).schema =
      .ok [argument] (calls.session (innerCalls.take 3)).schema := by decide +kernel
  exact ⟨hn, hlegible, allChildren_complete callView (innerCalls.take 2) hn hid hlegible hall⟩

end View

end TreeSchema
