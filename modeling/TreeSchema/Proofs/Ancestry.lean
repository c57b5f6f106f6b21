/-
What an entity has above it.

The ancestry of an entity mirrors the lineage of its kind, entity by entity and in the same
order.  In a consistent schema parents come before their subtypes, so a walk along them gets
to smaller numbers with every step and meets neither its bound nor an entity it has seen.
Listing the features of an entity and looking one up by its name are both searches through the
same ancestry, and they agree.
-/
import TreeSchema.Proofs.Consistency
import TreeSchema.Proofs.Lineage

namespace TreeSchema

/-! ### Features -/

theorem Entity.feature?_eq_find? (e : Entity) (name : String) :
    e.feature? name = e.features.find? (·.name = name) := by
  unfold Entity.feature? Entity.features
  rw [List.find?_append, List.find?_map, List.find?_map]
  rfl

namespace Schema

variable {s : Schema} {f : Feature} {name : String} {id p : EntityId}

theorem mem_firstOfEachName_iff {fs : List Feature} :
    f ∈ firstOfEachName fs ↔ fs.find? (·.name = f.name) = some f := by
  induction fs with
  | nil => simp [firstOfEachName]
  | cons g fs ih =>
      by_cases h : g.name = f.name
      · simp [firstOfEachName, h, eq_comm]
      · have hne : f ≠ g := fun e => h (congrArg Feature.name e.symm)
        simp [firstOfEachName, h, hne, ih, Ne.symm h]

theorem pairwise_firstOfEachName (fs : List Feature) :
    (firstOfEachName fs).Pairwise fun f g => f.name ≠ g.name := by
  induction fs with
  | nil => exact .nil
  | cons f fs ih =>
      refine .cons (fun g hg => ?_) (ih.filter _)
      exact (of_decide_eq_true (List.mem_filter.mp hg).2).symm

/-- A feature is found by a name exactly if it is listed and has that name. -/
theorem feature?_eq_some_iff :
    s.feature? id name = some f ↔ f ∈ s.features id ∧ f.name = name := by
  have hfind : s.feature? id name =
      (((s.ancestry id).filterMap s.entity?).flatMap Entity.features).find? (·.name = name) := by
    rw [List.find?_flatMap]
    exact congrArg (List.findSome? · _) (funext fun e => e.feature?_eq_find? name)
  rw [hfind, features, mem_firstOfEachName_iff]
  constructor
  · intro h
    have hname : f.name = name := by simpa using List.find?_some h
    exact ⟨hname ▸ h, hname⟩
  · rintro ⟨h, rfl⟩
    exact h

theorem exists_entity_of_mem_features (h : f ∈ s.features id) :
    ∃ p e, p ∈ s.ancestry id ∧ s.entity? p = some e ∧ f ∈ e.features := by
  have hf := List.mem_of_find?_eq_some (mem_firstOfEachName_iff.mp h)
  obtain ⟨e, he, hf⟩ := List.mem_flatMap.mp hf
  obtain ⟨p, hp, he⟩ := List.mem_filterMap.mp he
  exact ⟨p, e, hp, he, hf⟩

end Schema

/-! ### Ancestry and lineage -/

namespace Consistent

variable {b : Blueprint} {s : Schema} {kind parent ancestor : String} {id p : EntityId}

/-- The entity of a kind has the entity of its parent kind above it, which came earlier. -/
theorem exists_parent (hc : Consistent b s) (hid : s.idOf? kind = some id)
    (h : b.grammar.DerivesFrom kind parent) :
    ∃ p, s.parent? id = some p ∧ s.idOf? parent = some p ∧ p.index < id.index := by
  obtain ⟨e, he, rfl⟩ := hc.idOf?_eq_some_iff.mp hid
  have hparent := hc.parent he
  rw [show b.grammar.parent? e.kind = some parent from h] at hparent
  cases hq : e.parent with
  | none => rw [hq] at hparent; cases hparent
  | some q =>
      rw [hq, Option.rel_some_some] at hparent
      exact ⟨q, by rw [Schema.parent?, he, Option.bind_some, hq], hparent⟩

/-- An entity has nothing above it if its kind has not. -/
theorem parent?_eq_none (hc : Consistent b s) (hid : s.idOf? kind = some id)
    (h : b.grammar.parent? kind = none) : s.parent? id = none := by
  obtain ⟨e, he, rfl⟩ := hc.idOf?_eq_some_iff.mp hid
  have hparent := hc.parent he
  rw [h] at hparent
  rw [Schema.parent?, he, Option.bind_some]
  cases hq : e.parent with
  | none => rfl
  | some q => rw [hq] at hparent; cases hparent

/-- All kinds above one that has an entity have entities, which came earlier. -/
theorem exists_ancestor (hc : Consistent b s) (hid : s.idOf? kind = some id)
    (h : Relation.ReflTransGen b.grammar.DerivesFrom kind ancestor) :
    ∃ p, s.idOf? ancestor = some p ∧ p.index ≤ id.index := by
  induction h with
  | refl => exact ⟨id, hid, Nat.le_refl _⟩
  | tail _ hderives ih =>
      obtain ⟨q, hq, hle⟩ := ih
      obtain ⟨p, -, hp, hlt⟩ := hc.exists_parent hq hderives
      exact ⟨p, hp, Nat.le_trans (Nat.le_of_lt hlt) hle⟩

/-- No kind has an entity if going up from it leads into a cycle. -/
theorem acyclic (hc : Consistent b s) (hid : s.idOf? kind = some id)
    (h : Relation.ReflTransGen b.grammar.DerivesFrom kind ancestor) :
    ¬ Relation.TransGen b.grammar.DerivesFrom ancestor ancestor := by
  intro hcycle
  obtain ⟨i, hi, -⟩ := hc.exists_ancestor hid h
  obtain ⟨parent, hderives, hback⟩ := Relation.TransGen.head'_iff.mp hcycle
  obtain ⟨j, -, hj, hlt⟩ := hc.exists_parent hi hderives
  obtain ⟨i', hi', hle⟩ := hc.exists_ancestor hj hback
  rw [hi, Option.some.injEq] at hi'
  subst hi'
  omega

/-- The walk along parents keeps step with the way up from the kind.  It gets to smaller numbers
with every step, so it meets neither its bound nor an entity it has seen. -/
theorem forall₂_ancestorsUpTo (hc : Consistent b s) (n : Nat) :
    ∀ {m : Nat} {kind : String} {id : EntityId} {seen : List EntityId},
      s.idOf? kind = some id → b.grammar.above? n kind = none → id.index ≤ m →
      (∀ j ∈ seen, id.index ≤ j.index) →
      List.Forall₂ (fun k p => s.idOf? k = some p) (b.grammar.lineageUpTo n kind)
        (id :: s.ancestorsUpTo m seen id) := by
  induction n with
  | zero =>
      intro m kind id seen _ habove
      cases habove
  | succ n ih =>
      intro m kind id seen hid habove hm hseen
      unfold Grammar.lineageUpTo
      refine .cons hid ?_
      cases hparent : b.grammar.parent? kind with
      | none =>
          have hnone := hc.parent?_eq_none hid hparent
          cases m <;> simp [Schema.ancestorsUpTo, hnone]
      | some parent =>
          obtain ⟨p, hp, hpid, hlt⟩ := hc.exists_parent hid hparent
          have hnew : p ∉ seen := by
            intro hmem
            have := hseen p hmem
            omega
          have hrest : b.grammar.above? n parent = none := by
            rw [Grammar.above?, hparent, Option.bind_some] at habove
            exact habove
          obtain ⟨m, rfl⟩ : ∃ m', m = m' + 1 := Nat.exists_eq_succ_of_ne_zero (by omega)
          have hseen' : ∀ j ∈ p :: seen, p.index ≤ j.index := by
            intro j hj
            rcases List.mem_cons.mp hj with rfl | hj
            · exact Nat.le_refl _
            · exact Nat.le_of_lt (Nat.lt_of_lt_of_le hlt (hseen j hj))
          rw [Schema.ancestorsUpTo, hp]
          simp only [if_neg hnew]
          exact ih hpid hrest (by omega) hseen'

/-- The ancestry of an entity is the lineage of its kind, one entity for each kind. -/
theorem forall₂_ancestry (hc : Consistent b s) (hid : s.idOf? kind = some id) :
    List.Forall₂ (fun k p => s.idOf? k = some p) (b.grammar.lineage kind) (s.ancestry id) := by
  have habove := Grammar.above?_eq_none_of_acyclic fun _ hup => hc.acyclic hid hup
  obtain ⟨e, he, -⟩ := hc.idOf?_eq_some_iff.mp hid
  exact hc.forall₂_ancestorsUpTo _ hid habove (Nat.le_of_lt (Schema.index_lt he)) (by simp)

theorem mem_ancestry_iff (hc : Consistent b s) (hid : s.idOf? kind = some id) :
    p ∈ s.ancestry id ↔
      ∃ ancestor, b.grammar.conforms kind ancestor = true ∧ s.idOf? ancestor = some p := by
  have hall := hc.forall₂_ancestry hid
  constructor
  · intro hp
    obtain ⟨ancestor, hmem, hancestor⟩ := exists_of_mem_right hall hp
    exact ⟨ancestor, decide_eq_true hmem, hancestor⟩
  · rintro ⟨ancestor, hconforms, hancestor⟩
    obtain ⟨q, hq, hqid⟩ := exists_of_mem_left hall (of_decide_eq_true hconforms)
    rw [hancestor, Option.some.injEq] at hqid
    exact hqid ▸ hq

end Consistent

end TreeSchema
