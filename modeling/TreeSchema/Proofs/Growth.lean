/-
Schemas and entities that grow.

Nothing a derivation adds is ever taken out again unless all of it is: entities that are
there keep what they have, except that they may become abstract.  `Schema.Extends` says
so of two schemas.  What an entity carries and what it derives from are read in a schema,
because relations and parents are numbers, and both survive when the schema is extended.

The other way to grow is one feature at a time.  A feature is refused if its name is taken,
and otherwise goes to the end of its list, so names stay distinct and the entity carries
one contribution more.
-/
import TreeSchema.Proofs.Consistency

namespace TreeSchema

/-! ### Schemas with more in them -/

/-- `s'` has all that `s` has. -/
structure Schema.Extends (s s' : Schema) : Prop where
  size_le : s.size ≤ s'.size
  entity : ∀ {id e}, s.entity? id = some e → ∃ e', s'.entity? id = some e' ∧ e.Grown e'
  idOf? : ∀ {kind id}, s.idOf? kind = some id → s'.idOf? kind = some id

namespace Schema.Extends

variable {s s' s'' : Schema}

theorem refl (s : Schema) : s.Extends s := ⟨Nat.le_refl _, fun h => ⟨_, h, .refl _⟩, id⟩

theorem trans (h : s.Extends s') (h' : s'.Extends s'') : s.Extends s'' where
  size_le := Nat.le_trans h.size_le h'.size_le
  entity he := by
    obtain ⟨e', he', hg⟩ := h.entity he
    obtain ⟨e'', he'', hg'⟩ := h'.entity he'
    exact ⟨e'', he'', hg.trans hg'⟩
  idOf? hk := h'.idOf? (h.idOf? hk)

/-- An entity that is looked up later and was there before is the one that was there. -/
theorem grown (h : s.Extends s') {id : EntityId} {e' : Entity} (hlt : id.index < s.size)
    (he' : s'.entity? id = some e') : ∃ e, s.entity? id = some e ∧ e.Grown e' := by
  obtain ⟨e, he⟩ := Schema.entity?_of_lt hlt
  obtain ⟨e'', he'', hg⟩ := h.entity he
  rw [he', Option.some.injEq] at he''
  exact ⟨e, he, he'' ▸ hg⟩

theorem adopt {e : Entity} (hfresh : s.idOf? e.kind = none) : s.Extends (s.adopt e) where
  size_le := by rw [Schema.size_adopt]; omega
  entity := Schema.grown_adopt
  idOf? := by
    intro kind id hk
    rw [Schema.idOf?_adopt, if_neg, hk]
    rintro rfl
    rw [hfresh] at hk
    cases hk

/-- What happens to entities that come after all of `s` does not concern `s`. -/
theorem modify {id : EntityId} {f : Entity → Entity} (h : s.Extends s')
    (hid : s.size ≤ id.index) : s.Extends (s'.modify id f) where
  size_le := by rw [Schema.size_modify]; exact h.size_le
  entity := by
    intro j e he
    have hlt := Schema.index_lt he
    have hne : id ≠ j := fun hj => by subst hj; omega
    rw [Schema.entity?_modify_ne hne]
    exact h.entity he
  idOf? := h.idOf?

end Schema.Extends

/-! ### Features given to an entity -/

namespace Entity

variable {e e' : Entity} {err : Error}

theorem hasFeature_eq_false_iff {name : String} :
    e.hasFeature name = false ↔ name ∉ e.features.map Feature.name := by
  unfold hasFeature property? relation? features
  simp only [Bool.or_eq_false_iff, Option.isSome_eq_false_iff, Option.isNone_iff_eq_none,
    List.find?_eq_none, decide_eq_true_eq, List.map_append, List.map_map, List.mem_append,
    List.mem_map, Function.comp_apply, Feature.name, not_or, not_exists, not_and]
  exact and_comm

theorem addProperty_eq_ok_iff {p : Property} :
    e.addProperty p = .ok e' ↔
      p.name ∉ e.features.map Feature.name ∧ e' = { e with properties := e.properties ++ [p] } := by
  unfold addProperty
  rw [← hasFeature_eq_false_iff]
  cases e.hasFeature p.name <;> simp [eq_comm]

theorem addRelation_eq_ok_iff {r : Relation} :
    e.addRelation r = .ok e' ↔
      r.name ∉ e.features.map Feature.name ∧ e' = { e with relations := e.relations ++ [r] } := by
  unfold addRelation
  rw [← hasFeature_eq_false_iff]
  cases e.hasFeature r.name <;> simp [eq_comm]

theorem fault_of_addProperty {p : Property} (h : e.addProperty p = .error err) :
    err.fault = .configuration := by
  unfold addProperty at h
  split at h <;> cases h
  rfl

theorem fault_of_addRelation {r : Relation} (h : e.addRelation r = .error err) :
    err.fault = .configuration := by
  unfold addRelation at h
  split at h <;> cases h
  rfl

theorem nodup_names_addProperty {p : Property} (hn : (e.features.map Feature.name).Nodup)
    (hp : p.name ∉ e.features.map Feature.name) :
    (({ e with properties := e.properties ++ [p] } : Entity).features.map Feature.name).Nodup := by
  have hfeatures : ({ e with properties := e.properties ++ [p] } : Entity).features
      = e.features ++ [.property p] := by
    simp [features]
  rw [hfeatures, List.map_append]
  refine List.nodup_append.mpr ⟨hn, by simp, fun a ha b hb => ?_⟩
  rw [List.map_singleton, List.mem_singleton] at hb
  rintro rfl
  rw [hb] at ha
  exact hp ha

theorem nodup_names_addRelation {r : Relation} (hn : (e.features.map Feature.name).Nodup)
    (hr : r.name ∉ e.features.map Feature.name) :
    (({ e with relations := e.relations ++ [r] } : Entity).features.map Feature.name).Nodup := by
  have hperm : (({ e with relations := e.relations ++ [r] } : Entity).features.map
      Feature.name).Perm (r.name :: e.features.map Feature.name) := by
    simp [features, Feature.name]
  exact hperm.nodup_iff.mpr (List.nodup_cons.mpr ⟨hr, hn⟩)

end Entity

/-! ### What stays true of an entity as the schema grows -/

namespace Blueprint

variable {b : Blueprint} {s s' : Schema} {e e' : Entity} {cs : List Contribution}

theorem Carries.mono (h : b.Carries s e cs) (hs : s.Extends s') (he : e.Grown e') :
    b.Carries s' e' cs where
  properties := he.properties_eq.trans h.properties
  relations := by
    rw [he.relations_eq, he.id_eq]
    exact h.relations.imp fun _ _ hr => { hr with target := hs.idOf? hr.target }

theorem Derives.mono (h : b.Derives s e) (hs : s.Extends s') (he : e.Grown e') :
    b.Derives s' e' where
  name := by rw [he.name_eq, he.kind_eq, h.name]
  parent := by
    rw [he.parent_eq, he.kind_eq]
    exact rel_imp h.parent fun _ _ hp => hs.idOf? hp
  features := by
    obtain ⟨k, cs, hk, hd, hc⟩ := h.features
    rw [he.kind_eq]
    exact ⟨k, cs, hk, hd, hc.mono hs he⟩

theorem carries_outline (s : Schema) (id : EntityId) (kind : String) (p : Option EntityId) :
    b.Carries s (b.outline id kind p) [] where
  properties := by simp [outline]
  relations := .nil

theorem Carries.nothing (h : b.Carries s e cs) : b.Carries s e (cs ++ [.nothing]) where
  properties := by simpa [List.filterMap_cons] using h.properties
  relations := by simpa [List.filterMap_cons] using h.relations

theorem Carries.property (h : b.Carries s e cs) (p : Property) :
    b.Carries s { e with properties := e.properties ++ [p] } (cs ++ [.property p]) where
  properties := by simp [h.properties]
  relations := by simpa [List.filterMap_cons] using h.relations

theorem Carries.relation (h : b.Carries s e cs) {name target : String} {m : Multiplicity}
    {t : EntityId} (ht : s.idOf? target = some t) :
    b.Carries s { e with relations := e.relations ++ [⟨name, .containment, m, e.id, t⟩] }
      (cs ++ [.relation name m target]) where
  properties := by simpa [List.filterMap_cons] using h.properties
  relations := by
    rw [List.filterMap_append]
    exact List.rel_append h.relations (.cons ⟨rfl, rfl, rfl, rfl, ht⟩ .nil)

end Blueprint

end TreeSchema
