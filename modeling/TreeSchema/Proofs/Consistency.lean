/-
What every schema satisfies, finished or not.

Derivations are re-entrant: the slots of a parent can lead back to the very kind that is
waiting for it, and an entity can be found by others before its own features are in.  So
the invariant has to hold of a schema with half-built entities in it.  `Consistent` does:
it says of features only what is true from the first one on.

Two steps keep it.  `Schema.adopt` adds an entity and makes its parent abstract, which has
to count as one step, since "abstract" and "has a subtype" agree only before and after it.
The other gives one more feature to an entity that is there.
-/
import TreeSchema.Proofs.Declared
import TreeSchema.Proofs.Lookup
import TreeSchema.Blueprint.Derivation

namespace TreeSchema

theorem rel_imp {α β : Type} {r r' : α → β → Prop} {x : Option α} {y : Option β}
    (h : Option.Rel r x y) (himp : ∀ a b, r a b → r' a b) : Option.Rel r' x y := by
  cases h with
  | some h => exact .some (himp _ _ h)
  | none => exact .none

theorem exists_of_rel_some {α β : Type} {r : α → β → Prop} {x : Option α} {b : β}
    (h : Option.Rel r x (some b)) : ∃ a, x = some a ∧ r a b := by
  cases h with
  | some h => exact ⟨_, rfl, h⟩

/-! ### The invariant -/

/-- What holds of every schema in the course of a derivation. -/
structure Consistent (b : Blueprint) (s : Schema) : Prop where
  /-- Entities lie at the place of their number. -/
  numbered : ∀ {id e}, s.entity? id = some e → e.id = id
  /-- Looking a kind up finds its entity, and nothing else. -/
  idOf?_eq_some_iff : ∀ {kind id},
    s.idOf? kind = some id ↔ ∃ e, s.entity? id = some e ∧ e.kind = kind
  /-- Kinds that are passed over have no entity. -/
  mappable : ∀ {id e}, s.entity? id = some e →
    e.kind ∉ b.config.transparent ∧ e.kind ∉ b.config.flattened ∧ e.kind ∉ b.config.dropped
  known : ∀ {id e}, s.entity? id = some e → ∃ k, b.grammar.kind? e.kind = some k
  /-- An entity has a parent exactly if its kind has: the entity of that kind, which came
  earlier. -/
  parent : ∀ {id e}, s.entity? id = some e →
    Option.Rel (fun kind p => s.idOf? kind = some p ∧ p.index < id.index)
      (b.grammar.parent? e.kind) e.parent
  containment : ∀ {id e r}, s.entity? id = some e → r ∈ e.relations →
    r.kind = .containment ∧ r.source = id ∧ r.target.index < s.size
  names : ∀ {id e}, s.entity? id = some e → (e.features.map Feature.name).Nodup
  isAbstract_iff : ∀ {id e}, s.entity? id = some e →
    (e.isAbstract = true ↔ ∃ j c, s.entity? j = some c ∧ c.parent = some id)

theorem consistent_empty (b : Blueprint) : Consistent b .empty := by
  have hno : ∀ id, Schema.empty.entity? id = none := by
    intro id
    simp [Schema.entity?, Schema.empty]
  constructor
  case idOf?_eq_some_iff =>
    intro kind id
    simp only [hno]
    constructor
    · intro h
      cases h
    · rintro ⟨e, h, -⟩
      cases h
  all_goals
    intro id e
    intros
    simp_all

/-! ### An entity that may have become abstract -/

/-- `e'` is `e`, possibly made abstract. -/
def Entity.Grown (e e' : Entity) : Prop := e' = e ∨ e' = e.markAbstract

namespace Entity.Grown

variable {e e' e'' : Entity}

theorem refl (e : Entity) : e.Grown e := .inl rfl

theorem mark (e : Entity) : e.Grown e.markAbstract := .inr rfl

theorem trans (h : e.Grown e') (h' : e'.Grown e'') : e.Grown e'' := by
  rcases h with rfl | rfl
  · exact h'
  · rcases h' with rfl | rfl
    · exact mark e
    · exact mark e

theorem id_eq (h : e.Grown e') : e'.id = e.id := by rcases h with rfl | rfl <;> rfl

theorem name_eq (h : e.Grown e') : e'.name = e.name := by rcases h with rfl | rfl <;> rfl

theorem kind_eq (h : e.Grown e') : e'.kind = e.kind := by rcases h with rfl | rfl <;> rfl

theorem parent_eq (h : e.Grown e') : e'.parent = e.parent := by rcases h with rfl | rfl <;> rfl

theorem properties_eq (h : e.Grown e') : e'.properties = e.properties := by
  rcases h with rfl | rfl <;> rfl

theorem relations_eq (h : e.Grown e') : e'.relations = e.relations := by
  rcases h with rfl | rfl <;> rfl

theorem features_eq (h : e.Grown e') : e'.features = e.features := by
  rcases h with rfl | rfl <;> rfl

end Entity.Grown

/-! ### A new entity -/

namespace Schema

variable {s : Schema} {e x y : Entity} {id j : EntityId}

/-- Makes a parent abstract. -/
def markParent (s : Schema) : Option EntityId → Schema
  | none => s
  | some p => s.modify p Entity.markAbstract

/-- Adds an entity and makes its parent abstract. -/
def adopt (s : Schema) (e : Entity) : Schema := (s.markParent e.parent).push e

@[simp] theorem size_markParent (p : Option EntityId) : (s.markParent p).size = s.size := by
  cases p <;> simp [markParent]

@[simp] theorem idOf?_markParent (p : Option EntityId) (kind : String) :
    (s.markParent p).idOf? kind = s.idOf? kind := by
  cases p <;> rfl

theorem entity?_markParent (p : Option EntityId) :
    (s.markParent p).entity? id =
      (s.entity? id).map fun x => if p = some id then x.markAbstract else x := by
  cases p with
  | none => simp [markParent]
  | some p =>
      rw [markParent, entity?_modify]
      by_cases h : p = id <;> simp [h]

@[simp] theorem size_adopt : (s.adopt e).size = s.size + 1 := by simp [adopt]

theorem idOf?_adopt (kind : String) :
    (s.adopt e).idOf? kind = if e.kind = kind then some e.id else s.idOf? kind := by
  rw [adopt, idOf?_push, idOf?_markParent]

theorem entity?_adopt_new : (s.adopt e).entity? ⟨s.size⟩ = some e := by
  rw [adopt, entity?_push, size_markParent, if_pos rfl]

theorem entity?_adopt_old (h : s.entity? id = some y) :
    (s.adopt e).entity? id = some (if e.parent = some id then y.markAbstract else y) := by
  have hlt := index_lt h
  rw [adopt, entity?_push, size_markParent, if_neg (by omega), entity?_markParent, h]
  rfl

theorem grown_adopt (h : s.entity? id = some y) :
    ∃ x, (s.adopt e).entity? id = some x ∧ y.Grown x := by
  refine ⟨_, entity?_adopt_old h, ?_⟩
  split
  · exact .mark y
  · exact .refl y

/-- What is in the schema after an entity joined is that entity or was there before. -/
theorem cases_adopt (h : (s.adopt e).entity? id = some x) :
    (id = ⟨s.size⟩ ∧ x = e) ∨
      ∃ y, s.entity? id = some y ∧ y.Grown x ∧
        x = if e.parent = some id then y.markAbstract else y := by
  by_cases hid : id = ⟨s.size⟩
  · subst hid
    rw [entity?_adopt_new, Option.some.injEq] at h
    exact .inl ⟨rfl, h.symm⟩
  · have hne : id.index ≠ s.size := fun hi => hid (EntityId.ext_iff.mpr hi)
    have hlt : id.index < s.size := by
      have := index_lt h
      rw [size_adopt] at this
      omega
    obtain ⟨y, hy⟩ := entity?_of_lt hlt
    rw [entity?_adopt_old hy, Option.some.injEq] at h
    refine .inr ⟨y, hy, ?_, h.symm⟩
    rw [← h]
    split
    · exact .mark y
    · exact .refl y

/-- What is in the schema after an entity changed is the changed one or was there before. -/
theorem cases_modify (he : s.entity? id = some e)
    (h : (s.modify id fun _ => x).entity? j = some y) :
    (j = id ∧ y = x) ∨ (j ≠ id ∧ s.entity? j = some y) := by
  by_cases hj : id = j
  · subst hj
    rw [entity?_modify_self, he, Option.map_some, Option.some.injEq] at h
    exact .inl ⟨rfl, h.symm⟩
  · rw [entity?_modify_ne hj] at h
    exact .inr ⟨Ne.symm hj, h⟩

/-- What was in the schema before an entity changed is still there, of the same kind and with
the same parent. -/
theorem exists_entity?_modify (he : s.entity? id = some e) (hkind : x.kind = e.kind)
    (hparent : x.parent = e.parent) (hy : s.entity? j = some y) :
    ∃ z, (s.modify id fun _ => x).entity? j = some z ∧ z.kind = y.kind ∧ z.parent = y.parent := by
  by_cases hj : id = j
  · subst hj
    rw [he, Option.some.injEq] at hy
    subst hy
    exact ⟨x, by rw [entity?_modify_self, he, Option.map_some], hkind, hparent⟩
  · exact ⟨y, (entity?_modify_ne hj).trans hy, rfl, rfl⟩

end Schema

namespace Consistent

variable {b : Blueprint} {s : Schema} {e e' : Entity} {id : EntityId}

theorem index_lt_of_idOf? (hc : Consistent b s) {kind : String} (h : s.idOf? kind = some id) :
    id.index < s.size := by
  obtain ⟨e, he, -⟩ := hc.idOf?_eq_some_iff.mp h
  exact Schema.index_lt he

/-- A parent is the entity of the parent kind, and came earlier. -/
theorem exists_parent_kind (hc : Consistent b s) (he : s.entity? id = some e) {p : EntityId}
    (hp : e.parent = some p) :
    ∃ kind, b.grammar.parent? e.kind = some kind ∧ s.idOf? kind = some p ∧ p.index < id.index := by
  have h := hc.parent he
  rw [hp] at h
  obtain ⟨kind, hk, hr⟩ := exists_of_rel_some h
  exact ⟨kind, hk, hr⟩

/-- After an entity joined, it and the others are abstract if they have a subtype. -/
theorem isAbstract_iff_adopt (hc : Consistent b s)
    (hparent : Option.Rel (fun kind p => s.idOf? kind = some p) (b.grammar.parent? e.kind) e.parent)
    (habs : e.isAbstract = false) {x : Entity} (hx : (s.adopt e).entity? id = some x) :
    x.isAbstract = true ↔ ∃ j c, (s.adopt e).entity? j = some c ∧ c.parent = some id := by
  rcases Schema.cases_adopt hx with ⟨rfl, rfl⟩ | ⟨y, hy, -, hxy⟩
  · -- nothing can have a parent that has only just come
    rw [habs]
    constructor
    · intro h
      cases h
    · rintro ⟨j, c, hj, hcp⟩
      rcases Schema.cases_adopt hj with ⟨-, rfl⟩ | ⟨z, hz, hg, -⟩
      · rw [hcp] at hparent
        obtain ⟨kind, -, hk⟩ := exists_of_rel_some hparent
        exact absurd (hc.index_lt_of_idOf? hk) (Nat.lt_irrefl _)
      · obtain ⟨kind, -, hk, -⟩ := hc.exists_parent_kind hz (hg.parent_eq ▸ hcp)
        exact absurd (hc.index_lt_of_idOf? hk) (Nat.lt_irrefl _)
  · by_cases hp : e.parent = some id
    · rw [if_pos hp] at hxy
      subst hxy
      exact ⟨fun _ => ⟨_, e, Schema.entity?_adopt_new, hp⟩, fun _ => rfl⟩
    · rw [if_neg hp] at hxy
      subst hxy
      rw [hc.isAbstract_iff hy]
      constructor
      · rintro ⟨j, c, hj, hcp⟩
        obtain ⟨c', hj', hg⟩ := Schema.grown_adopt (e := e) hj
        exact ⟨j, c', hj', hg.parent_eq.trans hcp⟩
      · rintro ⟨j, c, hj, hcp⟩
        rcases Schema.cases_adopt hj with ⟨-, rfl⟩ | ⟨z, hz, hg, -⟩
        · exact absurd hcp hp
        · exact ⟨j, z, hz, hg.parent_eq ▸ hcp⟩

/-- After an entity joined, looking a kind up finds it for its kind and else what was found
before. -/
theorem idOf?_eq_some_iff_adopt (hc : Consistent b s) (hid : e.id = ⟨s.size⟩)
    (hfresh : s.idOf? e.kind = none) {kind : String} :
    (s.adopt e).idOf? kind = some id ↔ ∃ x, (s.adopt e).entity? id = some x ∧ x.kind = kind := by
  rw [Schema.idOf?_adopt]
  by_cases hk : e.kind = kind
  · rw [if_pos hk, hid]
    constructor
    · intro h
      cases h
      exact ⟨e, Schema.entity?_adopt_new, hk⟩
    · rintro ⟨x, hx, hxk⟩
      rcases Schema.cases_adopt hx with ⟨rfl, -⟩ | ⟨y, hy, hg, -⟩
      · rfl
      · have hfound : s.idOf? kind = some id := hc.idOf?_eq_some_iff.mpr ⟨y, hy, hg.kind_eq ▸ hxk⟩
        rw [← hk, hfresh] at hfound
        cases hfound
  · rw [if_neg hk]
    constructor
    · intro h
      obtain ⟨y, hy, hyk⟩ := hc.idOf?_eq_some_iff.mp h
      obtain ⟨x, hx, hg⟩ := Schema.grown_adopt (e := e) hy
      exact ⟨x, hx, hg.kind_eq.trans hyk⟩
    · rintro ⟨x, hx, hxk⟩
      rcases Schema.cases_adopt hx with ⟨-, rfl⟩ | ⟨y, hy, hg, -⟩
      · exact absurd hxk hk
      · exact hc.idOf?_eq_some_iff.mpr ⟨y, hy, hg.kind_eq ▸ hxk⟩

/-- A new entity for a kind that has none, without relations yet, keeps a schema consistent. -/
theorem adopt (hc : Consistent b s) (hid : e.id = ⟨s.size⟩) (hfresh : s.idOf? e.kind = none)
    (hmap : e.kind ∉ b.config.transparent ∧ e.kind ∉ b.config.flattened ∧
      e.kind ∉ b.config.dropped)
    (hknown : ∃ k, b.grammar.kind? e.kind = some k)
    (hparent : Option.Rel (fun kind p => s.idOf? kind = some p) (b.grammar.parent? e.kind) e.parent)
    (hrel : e.relations = []) (hnames : (e.features.map Feature.name).Nodup)
    (habs : e.isAbstract = false) : Consistent b (s.adopt e) := by
  have hidOf : ∀ {kind i}, s.idOf? kind = some i → (s.adopt e).idOf? kind = some i := by
    intro kind i h
    rw [Schema.idOf?_adopt, if_neg, h]
    rintro rfl
    rw [hfresh] at h
    cases h
  constructor
  case numbered =>
    intro i x hx
    rcases Schema.cases_adopt hx with ⟨rfl, rfl⟩ | ⟨y, hy, hg, -⟩
    · exact hid
    · rw [hg.id_eq, hc.numbered hy]
  case idOf?_eq_some_iff => exact hc.idOf?_eq_some_iff_adopt hid hfresh
  case mappable =>
    intro i x hx
    rcases Schema.cases_adopt hx with ⟨-, rfl⟩ | ⟨y, hy, hg, -⟩
    · exact hmap
    · rw [hg.kind_eq]
      exact hc.mappable hy
  case known =>
    intro i x hx
    rcases Schema.cases_adopt hx with ⟨-, rfl⟩ | ⟨y, hy, hg, -⟩
    · exact hknown
    · rw [hg.kind_eq]
      exact hc.known hy
  case parent =>
    intro i x hx
    rcases Schema.cases_adopt hx with ⟨rfl, rfl⟩ | ⟨y, hy, hg, -⟩
    · exact rel_imp hparent fun kind p hp => ⟨hidOf hp, hc.index_lt_of_idOf? hp⟩
    · rw [hg.kind_eq, hg.parent_eq]
      exact rel_imp (hc.parent hy) fun kind p hp => ⟨hidOf hp.1, hp.2⟩
  case containment =>
    intro i x r hx hr
    rcases Schema.cases_adopt hx with ⟨-, rfl⟩ | ⟨y, hy, hg, -⟩
    · rw [hrel] at hr
      simp at hr
    · rw [hg.relations_eq] at hr
      obtain ⟨hk, hs, ht⟩ := hc.containment hy hr
      refine ⟨hk, hs, ?_⟩
      rw [Schema.size_adopt]
      omega
  case names =>
    intro i x hx
    rcases Schema.cases_adopt hx with ⟨-, rfl⟩ | ⟨y, hy, hg, -⟩
    · exact hnames
    · rw [hg.features_eq]
      exact hc.names hy
  case isAbstract_iff => exact fun hx => hc.isAbstract_iff_adopt hparent habs hx

/-- Changing the features of one entity keeps a schema consistent, if its relations are its
own and lead to entities that are there, and its names stay distinct. -/
theorem modify (hc : Consistent b s) (he : s.entity? id = some e)
    (hid : e'.id = e.id) (hkind : e'.kind = e.kind) (hparent : e'.parent = e.parent)
    (habs : e'.isAbstract = e.isAbstract)
    (hrel : ∀ r ∈ e'.relations, r.kind = .containment ∧ r.source = id ∧ r.target.index < s.size)
    (hnames : (e'.features.map Feature.name).Nodup) :
    Consistent b (s.modify id fun _ => e') := by
  have hkinds : ∀ {j x}, (s.modify id fun _ => e').entity? j = some x →
      ∃ y, s.entity? j = some y ∧ x.id = y.id ∧ x.kind = y.kind ∧ x.parent = y.parent ∧
        x.isAbstract = y.isAbstract := by
    intro j x hx
    rcases Schema.cases_modify he hx with ⟨rfl, rfl⟩ | ⟨-, hy⟩
    · exact ⟨e, he, hid, hkind, hparent, habs⟩
    · exact ⟨x, hy, rfl, rfl, rfl, rfl⟩
  constructor
  case numbered =>
    intro j x hx
    obtain ⟨y, hy, hxid, -⟩ := hkinds hx
    rw [hxid, hc.numbered hy]
  case idOf?_eq_some_iff =>
    intro kind j
    rw [Schema.idOf?_modify, hc.idOf?_eq_some_iff]
    constructor
    · rintro ⟨y, hy, hyk⟩
      obtain ⟨x, hx, hxk, -⟩ := Schema.exists_entity?_modify he hkind hparent hy
      exact ⟨x, hx, hxk.trans hyk⟩
    · rintro ⟨x, hx, hxk⟩
      obtain ⟨y, hy, -, hyk, -⟩ := hkinds hx
      exact ⟨y, hy, hyk.symm.trans hxk⟩
  case mappable =>
    intro j x hx
    obtain ⟨y, hy, -, hk, -⟩ := hkinds hx
    rw [hk]
    exact hc.mappable hy
  case known =>
    intro j x hx
    obtain ⟨y, hy, -, hk, -⟩ := hkinds hx
    rw [hk]
    exact hc.known hy
  case parent =>
    intro j x hx
    obtain ⟨y, hy, -, hk, hp, -⟩ := hkinds hx
    rw [hk, hp]
    exact hc.parent hy
  case containment =>
    intro j x r hx hr
    rw [Schema.size_modify]
    rcases Schema.cases_modify he hx with ⟨rfl, rfl⟩ | ⟨-, hy⟩
    · exact hrel r hr
    · exact hc.containment hy hr
  case names =>
    intro j x hx
    rcases Schema.cases_modify he hx with ⟨-, rfl⟩ | ⟨-, hy⟩
    · exact hnames
    · exact hc.names hy
  case isAbstract_iff =>
    intro j x hx
    obtain ⟨y, hy, -, -, -, ha⟩ := hkinds hx
    rw [ha, hc.isAbstract_iff hy]
    constructor
    · rintro ⟨i, c, hi, hcp⟩
      obtain ⟨c', hi', -, hp⟩ := Schema.exists_entity?_modify he hkind hparent hi
      exact ⟨i, c', hi', hp.trans hcp⟩
    · rintro ⟨i, c, hi, hcp⟩
      obtain ⟨c', hi', -, -, hp, -⟩ := hkinds hi
      exact ⟨i, c', hi', hp.symm.trans hcp⟩

end Consistent

end TreeSchema
