/-
Which feature a name stands for.

The features of an entity are listed by going through its whole ancestry and leaving out every name
that came before.  One of them is looked up level by level: the relations of an entity, its
properties, then the same for the next above.  What a name stands for can be said without either
search.  It is the entity's own feature of that name or, if it has none, what the name stands for
at its parent (`Schema.Inherits`).

In a consistent schema parents come before their subtypes.  So the ancestry of an entity is the
entity and then the ancestry of its parent, whatever bound and guard the walk has left, and both
searches follow the same rule.  As the names of an entity are distinct, it does not matter in which
order its relations and properties are searched.
-/
import TreeSchema.Proofs.Inheritance

namespace TreeSchema

/-- Where names are distinct, the feature of a name is found if it is there. -/
theorem find?_name_eq_some_iff {fs : List Feature} {f : Feature} {name : String}
    (h : (fs.map Feature.name).Nodup) :
    fs.find? (·.name = name) = some f ↔ f ∈ fs ∧ f.name = name := by
  constructor
  · intro hfound
    exact ⟨List.mem_of_find?_eq_some hfound, by simpa using List.find?_some hfound⟩
  · intro hf
    obtain ⟨hmem, hname⟩ := hf
    cases hfound : fs.find? (·.name = name) with
    | none => simpa [hname] using List.find?_eq_none.mp hfound f hmem
    | some g =>
        have hg : g.name = name := by simpa using List.find?_some hfound
        have hgmem : g ∈ fs := List.mem_of_find?_eq_some hfound
        rw [List.inj_on_of_nodup_map h hgmem hmem (hg.trans hname.symm)]

namespace Schema

variable {s : Schema} {name : String} {id p : EntityId} {e : Entity} {f g : Feature}

theorem nodup_names_features (s : Schema) (id : EntityId) :
    ((s.features id).map Feature.name).Nodup :=
  List.pairwise_map.mpr (pairwise_firstOfEachName _)

/-- Looking a feature up is searching the list of features. -/
theorem feature?_eq_find? (s : Schema) (id : EntityId) (name : String) :
    s.feature? id name = (s.features id).find? (·.name = name) :=
  Option.ext fun _ =>
    feature?_eq_some_iff.trans (find?_name_eq_some_iff (s.nodup_names_features id)).symm

/-- What a name stands for at an entity: its own feature of that name or, if it has none, what the
name stands for at its parent. -/
inductive Inherits (s : Schema) (name : String) : EntityId → Feature → Prop
  | own {id : EntityId} {e : Entity} {f : Feature} (there : s.entity? id = some e)
      (mem : f ∈ e.features) (named : f.name = name) : Inherits s name id f
  | above {id p : EntityId} {e : Entity} {f : Feature} (there : s.entity? id = some e)
      (unused : ∀ g ∈ e.features, g.name ≠ name) (parent : e.parent = some p)
      (rest : Inherits s name p f) : Inherits s name id f

theorem Inherits.name_eq (h : s.Inherits name id f) : f.name = name := by
  induction h with
  | own _ _ named => exact named
  | above _ _ _ _ ih => exact ih

/-- A name that an entity above has stands for something. -/
theorem exists_inherits (hup : Relation.ReflTransGen (s.parent? · = some ·) id p)
    (he : s.entity? p = some e) (hg : g ∈ e.features) : ∃ f, s.Inherits g.name id f := by
  induction hup using Relation.ReflTransGen.head_induction_on with
  | refl => exact ⟨g, .own he hg rfl⟩
  | @head i j hstep _ ih =>
      obtain ⟨f, hf⟩ := ih
      obtain ⟨ei, hei, hparent⟩ := Option.bind_eq_some_iff.mp hstep
      by_cases hown : ∃ f' ∈ ei.features, f'.name = g.name
      · obtain ⟨f', hmem, hname⟩ := hown
        exact ⟨f', .own hei hmem hname⟩
      · have hunused : ∀ f' ∈ ei.features, f'.name ≠ g.name :=
          fun f' hmem hname => hown ⟨f', hmem, hname⟩
        exact ⟨f, .above hei hunused hparent hf⟩

end Schema

/-! ### One level of an ancestry -/

namespace Consistent

variable {b : Blueprint} {s : Schema} {name : String} {id p : EntityId} {e : Entity} {f : Feature}

/-- The parent of an entity is there and came earlier. -/
theorem exists_entity_of_parent (hc : Consistent b s) (he : s.entity? id = some e)
    (hp : e.parent = some p) :
    ∃ kind e', s.idOf? kind = some p ∧ s.entity? p = some e' ∧ p.index < id.index := by
  have hparent := hc.parent he
  rw [hp] at hparent
  obtain ⟨kind, -, hpid, hlt⟩ := exists_of_rel_some hparent
  obtain ⟨e', he', -⟩ := hc.idOf?_eq_some_iff.mp hpid
  exact ⟨kind, e', hpid, he', hlt⟩

/-- However a walk along parents got to an entity, it goes on in the same way, as long as it has
steps enough and what it has seen came later. -/
theorem cons_ancestorsUpTo (hc : Consistent b s) {kind : String} (hpid : s.idOf? kind = some p)
    {m : Nat} {seen : List EntityId} (hm : p.index ≤ m) (hseen : ∀ j ∈ seen, p.index ≤ j.index) :
    p :: s.ancestorsUpTo m seen p = s.ancestry p := by
  have hends := Grammar.above?_eq_none_of_acyclic fun _ hup => hc.acyclic hpid hup
  have hwalk := hc.forall₂_ancestorsUpTo _ hpid hends hm hseen
  exact List.right_unique_forall₂' (fun _ _ _ hi hj => Option.some.inj (hi.symm.trans hj)) hwalk
    (hc.forall₂_ancestry hpid)

theorem ancestry_of_parent (hc : Consistent b s) (he : s.entity? id = some e)
    (hp : e.parent = some p) : s.ancestry id = id :: s.ancestry p := by
  obtain ⟨kind, -, hpid, -, hlt⟩ := hc.exists_entity_of_parent he hp
  have hid : id.index < s.size := Schema.index_lt he
  obtain ⟨m, hm⟩ : ∃ m, s.size = m + 1 := Nat.exists_eq_succ_of_ne_zero (by omega)
  have hparent : s.parent? id = some p := by rw [Schema.parent?, he, Option.bind_some, hp]
  have hnew : p ∉ [id] := by
    rw [List.mem_singleton]
    rintro rfl
    exact Nat.lt_irrefl _ hlt
  have hseen : ∀ j ∈ [p, id], p.index ≤ j.index := by
    intro j hj
    rcases List.mem_pair.mp hj with rfl | rfl
    · exact Nat.le_refl _
    · exact Nat.le_of_lt hlt
  rw [Schema.ancestry, hm, Schema.ancestorsUpTo, hparent]
  simp only [if_neg hnew]
  rw [hc.cons_ancestorsUpTo hpid (by omega) hseen]

theorem ancestry_of_parent_eq_none (he : s.entity? id = some e) (hp : e.parent = none) :
    s.ancestry id = [id] := by
  have hparent : s.parent? id = none := by rw [Schema.parent?, he, Option.bind_some, hp]
  rw [Schema.ancestry]
  cases s.size <;> simp [Schema.ancestorsUpTo, hparent]

/-- A feature is looked up in the entity first and then in its parent. -/
theorem feature?_eq_or (hc : Consistent b s) (he : s.entity? id = some e) :
    s.feature? id name = (e.feature? name).or (e.parent.bind (s.feature? · name)) := by
  cases hp : e.parent with
  | none =>
      rw [Schema.feature?, ancestry_of_parent_eq_none he hp, List.filterMap_cons_some he]
      simp
  | some p =>
      rw [Schema.feature?, hc.ancestry_of_parent he hp, List.filterMap_cons_some he,
        List.findSome?_cons]
      cases e.feature? name <;> rfl

/-! ### Both searches -/

theorem entity_feature?_eq_some_iff (hc : Consistent b s) (he : s.entity? id = some e) :
    e.feature? name = some f ↔ f ∈ e.features ∧ f.name = name := by
  rw [e.feature?_eq_find?]
  exact find?_name_eq_some_iff (hc.names he)

theorem entity_feature?_eq_none_iff : e.feature? name = none ↔ ∀ g ∈ e.features, g.name ≠ name := by
  rw [e.feature?_eq_find?, List.find?_eq_none]
  simp

/-- What is found is what the name stands for, by induction on the number of the entity. -/
theorem inherits_of_feature? (hc : Consistent b s) (n : Nat) :
    ∀ {id : EntityId} {e : Entity}, id.index = n → s.entity? id = some e →
      s.feature? id name = some f → s.Inherits name id f := by
  induction n using Nat.strong_induction_on with
  | _ n ih =>
    intro id e hn he hf
    rw [hc.feature?_eq_or he, Option.or_eq_some_iff] at hf
    rcases hf with hown | ⟨hnone, habove⟩
    · obtain ⟨hmem, hname⟩ := (hc.entity_feature?_eq_some_iff he).mp hown
      exact .own he hmem hname
    · obtain ⟨p, hp, hf⟩ := Option.bind_eq_some_iff.mp habove
      obtain ⟨-, e', -, he', hlt⟩ := hc.exists_entity_of_parent he hp
      exact .above he (entity_feature?_eq_none_iff.mp hnone) hp (ih p.index (hn ▸ hlt) rfl he' hf)

/-- What a name stands for is found. -/
theorem feature?_of_inherits (hc : Consistent b s) (h : s.Inherits name id f) :
    s.feature? id name = some f := by
  induction h with
  | own there mem named =>
      rw [hc.feature?_eq_or there, (hc.entity_feature?_eq_some_iff there).mpr ⟨mem, named⟩]
      rfl
  | above there unused parent _ ih =>
      rw [hc.feature?_eq_or there, entity_feature?_eq_none_iff.mpr unused, parent]
      exact ih

theorem mem_features_iff_inherits (hc : Consistent b s) (he : s.entity? id = some e) :
    f ∈ s.features id ↔ s.Inherits f.name id f := by
  constructor
  · intro hf
    exact hc.inherits_of_feature? _ rfl he (Schema.feature?_eq_some_iff.mpr ⟨hf, rfl⟩)
  · intro hf
    exact (Schema.feature?_eq_some_iff.mp (hc.feature?_of_inherits hf)).1

end Consistent

/-! ### The features of an entity -/

/-- Listing the features of an entity and looking one up agree, and give what names stand for. -/
structure Schema.Resolves (s : Schema) (id : EntityId) : Prop where
  /-- The feature of a name is the first of that name in the list. -/
  first : ∀ name, s.feature? id name = (s.features id).find? (·.name = name)
  /-- There is none exactly if none is listed. -/
  absent : ∀ name, s.feature? id name = none ↔ ∀ f ∈ s.features id, f.name ≠ name
  distinct : ((s.features id).map Feature.name).Nodup
  /-- What is listed are the features from the nearest entity that has the name, and no others. -/
  nearest : ∀ f, f ∈ s.features id ↔ s.Inherits f.name id f
  /-- Every name of the entity, or of one above it, is listed. -/
  complete : ∀ p e, Relation.ReflTransGen (s.parent? · = some ·) id p → s.entity? p = some e →
    ∀ g ∈ e.features, ∃ f ∈ s.features id, f.name = g.name

theorem Consistent.resolves {b : Blueprint} {s : Schema} {id : EntityId} {e : Entity}
    (hc : Consistent b s) (he : s.entity? id = some e) : s.Resolves id where
  first := s.feature?_eq_find? id
  absent name := by
    rw [s.feature?_eq_find?, List.find?_eq_none]
    simp
  distinct := s.nodup_names_features id
  nearest f := hc.mem_features_iff_inherits he
  complete p e' hup he' g hg := by
    obtain ⟨f, hf⟩ := Schema.exists_inherits hup he' hg
    have hname : f.name = g.name := hf.name_eq
    rw [← hname] at hf
    exact ⟨f, (hc.mem_features_iff_inherits he).mpr hf, hname⟩

/-- Where the arguments of calls are named as the line breaks of statements are, they hide those. -/
example :
    let b : Blueprint :=
      { calls with
        config := callConfig.renameSlot "Call" "arg" "NEWLINE"
        known := by decide +kernel }
    ((b.session [.entityId "Call"]).schema.features ⟨1⟩).map Feature.name = ["NEWLINE", "NAME"] ∧
      (b.session [.entityId "Call"]).schema.feature? ⟨1⟩ "NEWLINE" =
        some (.relation ⟨"NEWLINE", .containment, .many, ⟨1⟩, ⟨2⟩⟩) := by
  decide +kernel

end TreeSchema
