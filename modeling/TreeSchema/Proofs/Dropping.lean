/-
Dropping one kind more.

Whether a kind is dropped is looked at in two places: no entity is derived for it, and a slot whose
target elides to it contributes nothing.  What a target elides to, what is text and what things are
called does not depend on it.  So a slot contributes what it did before, unless that was a relation
to the dropped kind, and then it contributes nothing (`Emits.drop`).

An entity carries what its kind declares, slot by slot, with either configuration.  Its relations
are then the same as before in the same order, without those to the dropped kind.  The numbers of
entities differ, as fewer are derived, and so relations are compared by the kinds of their ends.
-/
import TreeSchema.Proofs.Determined
import TreeSchema.Proofs.Permanence

namespace TreeSchema

/-! ### What a slot contributes -/

/-- What is left of a contribution when a kind is dropped. -/
def Contribution.without (dropped : String) : Contribution → Contribution
  | .relation name m target => if target = dropped then .nothing else .relation name m target
  | c => c

namespace Blueprint

variable {b : Blueprint} {dropped kind effective : String} {k : Kind} {slot : Slot}
  {c : Contribution} {cs : List Contribution}

/-- The blueprint with one kind more to drop.  The tokens to ignore are the same. -/
def drop (b : Blueprint) (dropped : String) : Blueprint :=
  { b with
    config := b.config.drop dropped
    known := b.known }

theorem mem_dropped_drop :
    kind ∈ (b.drop dropped).config.dropped ↔ kind = dropped ∨ kind ∈ b.config.dropped :=
  NameSet.mem_insert

theorem Elides.drop (h : b.Elides kind effective) (dropped : String) :
    (b.drop dropped).Elides kind effective := by
  induction h with
  | here plain => exact .here plain
  | through transparent known only single item _ ih =>
      exact .through transparent known only single item ih

theorem IsText.drop (h : b.IsText slot) (dropped : String) : (b.drop dropped).IsText slot := by
  rcases h with htoken | ⟨target, effective, item, elides, flattened⟩
  · exact .inl htoken
  · exact .inr ⟨target, effective, item, elides.drop dropped, flattened⟩

theorem Emits.drop (h : b.Emits kind slot c) (dropped : String) :
    (b.drop dropped).Emits kind slot (c.without dropped) := by
  cases h with
  | ignoredToken item ignored => exact .ignoredToken item ignored
  | text text kept => exact .text (text.drop dropped) kept
  | hidden text hidden => exact .hidden (text.drop dropped) hidden
  | dropped item elides node hdropped =>
      exact .dropped item (elides.drop dropped) node (mem_dropped_drop.mpr (.inr hdropped))
  | @child target effective item elides node kept =>
      by_cases heq : effective = dropped
      · rw [Contribution.without, if_pos heq]
        exact .dropped item (elides.drop dropped) node (mem_dropped_drop.mpr (.inl heq))
      · rw [Contribution.without, if_neg heq]
        have hkept : effective ∉ (b.drop dropped).config.dropped := by
          rw [mem_dropped_drop, not_or]
          exact ⟨heq, kept⟩
        exact .child item (elides.drop dropped) node hkept

theorem Walks.drop (h : b.Walks k slot c) (dropped : String) :
    (b.drop dropped).Walks k slot (c.without dropped) := by
  cases h with
  | shadowed h => exact .shadowed h
  | tokenLabel h => exact .tokenLabel h
  | emitted plain unlabelled emits => exact .emitted plain unlabelled (emits.drop dropped)

/-- A kind declares what it did, without the relations to the dropped kind. -/
theorem Declares.drop (h : b.Declares k cs) (dropped : String) :
    (b.drop dropped).Declares k (cs.map (Contribution.without dropped)) := by
  obtain ⟨walked, forced, rfl, hwalked, hforced⟩ := h
  refine ⟨walked.map (.without dropped), forced.map (.without dropped), List.map_append, ?_, ?_⟩
  · rw [List.forall₂_map_right_iff]
    exact hwalked.imp fun slot c hw => hw.drop dropped
  · rw [List.forall₂_map_right_iff]
    refine hforced.imp fun name c hf => ?_
    obtain ⟨slot, hslot, hemits⟩ := hf
    exact ⟨slot, hslot, hemits.drop dropped⟩

end Blueprint

/-! ### What an entity holds -/

namespace Contribution

variable {dropped : String} {c : Contribution}

theorem property?_without : (c.without dropped).property? = c.property? := by
  cases c with
  | nothing => rfl
  | property p => rfl
  | relation name m target =>
      rw [without]
      split <;> rfl

theorem link?_without :
    (c.without dropped).link? = c.link?.filter fun l => l.target ≠ dropped := by
  cases c with
  | nothing => rfl
  | property p => rfl
  | relation name m target =>
      rw [without]
      by_cases heq : target = dropped
      · rw [if_pos heq]
        simp [Option.filter, heq]
      · rw [if_neg heq]
        simp [Option.filter, heq]

theorem filterMap_property?_without (cs : List Contribution) :
    (cs.map (.without dropped)).filterMap property? = cs.filterMap property? := by
  rw [List.filterMap_map]
  exact List.filterMap_congr fun c _ => property?_without

theorem filterMap_link?_without (cs : List Contribution) :
    (cs.map (.without dropped)).filterMap link? =
      (cs.filterMap link?).filter fun l => l.target ≠ dropped := by
  rw [List.filterMap_map, List.filter_filterMap]
  exact List.filterMap_congr fun c _ => link?_without

end Contribution

/-- Two relations of different schemas are the same, up to the numbers: their ends have entities of
the same kinds. -/
structure Relation.Alike (s s' : Schema) (r r' : Relation) : Prop where
  name : r'.name = r.name
  kind : r'.kind = r.kind
  multiplicity : r'.multiplicity = r.multiplicity
  source : ∃ kind, s.kindOf? r.source = some kind ∧ s'.kindOf? r'.source = some kind
  target : ∃ kind, s.kindOf? r.target = some kind ∧ s'.kindOf? r'.target = some kind

section Alike

variable {b b' : Blueprint} {s s' : Schema} {e e' : Entity} {id id' : EntityId} {dropped : String}

theorem Schema.Realizes.alike {l : Link} {r r' : Relation} (hc : Consistent b s)
    (hc' : Consistent b' s') (he : s.entity? id = some e) (he' : s'.entity? id' = some e')
    (hkind : e'.kind = e.kind) (h : s.Realizes id l r) (h' : s'.Realizes id' l r') :
    r.Alike s s' r' where
  name := h'.name.trans h.name.symm
  kind := h'.kind.trans h.kind.symm
  multiplicity := h'.multiplicity.trans h.multiplicity.symm
  source := by
    refine ⟨e.kind, ?_, ?_⟩
    · rw [h.source, Schema.kindOf?, he, Option.map_some]
    · rw [h'.source, Schema.kindOf?, he', Option.map_some, hkind]
  target := ⟨l.target, hc.kindOf?_of_idOf? h.target, hc'.kindOf?_of_idOf? h'.target⟩

/-- Links to all kinds but one make the relations that those to all kinds make, without those to
that one. -/
theorem forall₂_alike {links : List Link} {relations relations' : List Relation}
    (hc : Consistent b s) (hc' : Consistent b' s') (he : s.entity? id = some e)
    (he' : s'.entity? id' = some e') (hkind : e'.kind = e.kind)
    (h : List.Forall₂ (s.Realizes id) links relations)
    (h' : List.Forall₂ (s'.Realizes id') (links.filter fun l => l.target ≠ dropped) relations') :
    List.Forall₂ (Relation.Alike s s')
      (relations.filter fun r => s.kindOf? r.target ≠ some dropped) relations' := by
  induction h generalizing relations' with
  | nil =>
      cases h'
      exact .nil
  | @cons l r links relations hr _ ih =>
      have htarget : s.kindOf? r.target = some l.target := hc.kindOf?_of_idOf? hr.target
      by_cases heq : l.target = dropped
      · rw [List.filter_cons_of_neg (by simp [heq])] at h'
        rw [List.filter_cons_of_neg (by simp [htarget, heq])]
        exact ih h'
      · rw [List.filter_cons_of_pos (by simp [heq])] at h'
        rw [List.filter_cons_of_pos (by simp [htarget, heq])]
        cases h' with
        | cons hr' hrest => exact .cons (hr.alike hc hc' he he' hkind hr') (ih hrest)

end Alike

/--
**Dropping a kind removes the relations to it and nothing else.**  Take a mapper, asked anything,
and one that drops a kind more, asked anything else.  Where both have an entity of one kind, the
two have the same name, parents of the same kind and the same properties.  The relations of the
second are those of the first, one by one and in the same order, but for those to the entity of the
dropped kind.

It does not matter how a slot leads to the dropped kind, and the kind may be transparent or
flattened too: then it has no entity with either configuration, and nothing is removed.
-/
theorem drop_removes_relations (b : Blueprint) (dropped : String) (calls others : List Call)
    {id id' : EntityId} {e e' : Entity} (he : (b.session calls).schema.entity? id = some e)
    (he' : ((b.drop dropped).session others).schema.entity? id' = some e')
    (hkind : e'.kind = e.kind) :
    e'.name = e.name ∧
      e'.parent.bind ((b.drop dropped).session others).schema.kindOf? =
        e.parent.bind (b.session calls).schema.kindOf? ∧
      e'.properties = e.properties ∧
      List.Forall₂
        (Relation.Alike (b.session calls).schema ((b.drop dropped).session others).schema)
        (e.relations.filter fun r => (b.session calls).schema.kindOf? r.target ≠ some dropped)
        e'.relations := by
  have hf : Finished b (b.session calls).schema := (Session.Holds.session b calls).finished
  have hf' : Finished (b.drop dropped) ((b.drop dropped).session others).schema :=
    (Session.Holds.session _ others).finished
  have hderives := hf.derived he
  have hderives' := hf'.derived he'
  obtain ⟨k, cs, hk, hdeclares, hcarries⟩ := hderives.features
  obtain ⟨k', cs', hk', hdeclares', hcarries'⟩ := hderives'.features
  have hsame : b.grammar.kind? e.kind = some k' := hkind ▸ hk'
  rw [hk, Option.some.injEq] at hsame
  subst hsame
  obtain rfl := (hdeclares.drop dropped).unique hdeclares'
  have hrelations' := hcarries'.relations
  rw [Contribution.filterMap_link?_without, hf'.consistent.numbered he'] at hrelations'
  have hrelations := hcarries.relations
  rw [hf.consistent.numbered he] at hrelations
  refine ⟨?_, ?_, ?_, ?_⟩
  · rw [hderives.name, hderives'.name, hkind]
    rfl
  · rw [hderives.bind_kindOf? hf.consistent, hderives'.bind_kindOf? hf'.consistent, hkind]
    rfl
  · rw [hcarries.properties, hcarries'.properties, Contribution.filterMap_property?_without]
    rfl
  · exact forall₂_alike hf.consistent hf'.consistent he he' hkind hrelations hrelations'

/-- Calls have arguments, which are expressions in wrappers.  Without expressions they only have a
name, however late they are asked for. -/
theorem drop_removes_relations_call :
    (calls.session [.entityId "Call"]).schema.entity? ⟨1⟩ = some
        ⟨⟨1⟩, "Call", "Call", some ⟨0⟩, false, [⟨"NAME", .string, .one⟩],
          [⟨"arg", .containment, .many, ⟨1⟩, ⟨2⟩⟩]⟩ ∧
      ((calls.drop "Expr").session [.entityId "Block", .entityId "Call"]).schema.entity? ⟨2⟩ = some
        ⟨⟨2⟩, "Call", "Call", some ⟨1⟩, false, [⟨"NAME", .string, .one⟩], []⟩ ∧
      List.Forall₂
        (Relation.Alike (calls.session [.entityId "Call"]).schema
          ((calls.drop "Expr").session [.entityId "Block", .entityId "Call"]).schema)
        ([⟨"arg", .containment, .many, ⟨1⟩, ⟨2⟩⟩].filter fun r =>
          (calls.session [.entityId "Call"]).schema.kindOf? r.target ≠ some "Expr") [] := by
  have h : (calls.session [.entityId "Call"]).schema.entity? ⟨1⟩ = some
      ⟨⟨1⟩, "Call", "Call", some ⟨0⟩, false, [⟨"NAME", .string, .one⟩],
        [⟨"arg", .containment, .many, ⟨1⟩, ⟨2⟩⟩]⟩ := by decide +kernel
  have h' : ((calls.drop "Expr").session [.entityId "Block", .entityId "Call"]).schema.entity? ⟨2⟩
      = some ⟨⟨2⟩, "Call", "Call", some ⟨1⟩, false, [⟨"NAME", .string, .one⟩], []⟩ := by
    decide +kernel
  exact ⟨h, h', (drop_removes_relations calls "Expr" _ _ h h' rfl).2.2.2⟩

end TreeSchema
