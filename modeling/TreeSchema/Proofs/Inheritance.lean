/-
The two notions of inheritance.

Kinds inherit by the parents that the grammar names, and entities by the numbers of their parents.
Slots are traced by the first and ancestors are searched by the second, each with a bound and a
guard of its own against parents that run in a circle.  In a schema that requests lead to neither
ever cuts anything off: a kind has an entity only if the way up from it ends.  So both go through
the same kinds in the same order, and since no kind comes twice on a way that ends, and kinds have
entities of their own, no entity does.
-/
import TreeSchema.Proofs.Permanence

namespace TreeSchema

namespace Consistent

variable {b : Blueprint} {s : Schema} {kind target : String} {id i : EntityId}

/-- A kind has one entity, and it is of no other kind. -/
theorem biUnique_idOf? (hc : Consistent b s) :
    Relator.BiUnique fun kind id => s.idOf? kind = some id := by
  constructor
  · intro kind id target hkind htarget
    obtain ⟨e, he, rfl⟩ := hc.idOf?_eq_some_iff.mp hkind
    obtain ⟨e', he', rfl⟩ := hc.idOf?_eq_some_iff.mp htarget
    rw [he, Option.some.injEq] at he'
    rw [he']
  · intro kind id i hid hi
    exact Option.some.inj (hid.symm.trans hi)

/-- The way up from a kind with an entity ends, and its lineage is all of it. -/
theorem trail_lineage (hc : Consistent b s) (hid : s.idOf? kind = some id) :
    ∃ kinds, b.grammar.lineage kind = kind :: kinds ∧ Trail b.grammar.parent? kind kinds := by
  have habove := Grammar.above?_eq_none_of_acyclic fun _ hup => hc.acyclic hid hup
  exact Grammar.trail_lineageUpTo _ habove

theorem nodup_ancestry (hc : Consistent b s) (hid : s.idOf? kind = some id) :
    (s.ancestry id).Nodup := by
  obtain ⟨kinds, hlineage, htrail⟩ := hc.trail_lineage hid
  have hnodup : (b.grammar.lineage kind).Nodup := by
    rw [hlineage]
    exact htrail.nodup
  exact (List.rel_nodup hc.biUnique_idOf? (hc.forall₂_ancestry hid)).mp hnodup

/-- An entity is above another exactly if its kind is above the kind of that one. -/
theorem mem_ancestry_iff_conforms (hc : Consistent b s) (hid : s.idOf? kind = some id)
    (hi : s.idOf? target = some i) :
    i ∈ s.ancestry id ↔ b.grammar.conforms kind target = true := by
  rw [hc.mem_ancestry_iff hid]
  constructor
  · rintro ⟨ancestor, hconforms, hancestor⟩
    obtain rfl := hc.biUnique_idOf?.1 hancestor hi
    exact hconforms
  · intro hconforms
    exact ⟨target, hconforms, hi⟩

end Consistent

/--
**Entities inherit as their kinds do.**  Let a mapper be asked anything, with whatever success, and
let `kind` have an entity then.  The entity of another kind is in its ancestry exactly if `kind`
conforms to that kind.  The ancestry lists no entity twice: it is the entity of `kind`, of its
parent, of the parent of that one and so on, up to a kind without a parent.
-/
theorem ancestry_mirrors_lineage (b : Blueprint) (calls : List Call) {kind : String}
    {id : EntityId} (hid : (b.session calls).schema.idOf? kind = some id) :
    (∀ target i, (b.session calls).schema.idOf? target = some i →
        (i ∈ (b.session calls).schema.ancestry id ↔ b.grammar.conforms kind target = true)) ∧
      ((b.session calls).schema.ancestry id).Nodup ∧
      ∃ kinds, Trail b.grammar.parent? kind kinds ∧
        List.Forall₂ (fun k p => (b.session calls).schema.idOf? k = some p) (kind :: kinds)
          ((b.session calls).schema.ancestry id) := by
  have hc := (Session.Holds.session b calls).finished.consistent
  obtain ⟨kinds, hlineage, htrail⟩ := hc.trail_lineage hid
  have hall := hc.forall₂_ancestry hid
  rw [hlineage] at hall
  exact ⟨fun target i hi => hc.mem_ancestry_iff_conforms hid hi, hc.nodup_ancestry hid,
    kinds, htrail, hall⟩

/-- Above a call there are the statements, and the way up ends below the base kind. -/
theorem ancestry_mirrors_lineage_call :
    (calls.session [.deriveAll]).schema.idOf? "Call" = some ⟨2⟩ ∧
      (calls.session [.deriveAll]).schema.idOf? "Stmt" = some ⟨1⟩ ∧
      (⟨1⟩ ∈ (calls.session [.deriveAll]).schema.ancestry ⟨2⟩ ↔
        calls.grammar.conforms "Call" "Stmt" = true) ∧
      ((calls.session [.deriveAll]).schema.ancestry ⟨2⟩).Nodup := by
  have hcall : (calls.session [.deriveAll]).schema.idOf? "Call" = some ⟨2⟩ := by decide +kernel
  have hstmt : (calls.session [.deriveAll]).schema.idOf? "Stmt" = some ⟨1⟩ := by decide +kernel
  obtain ⟨hmem, hnodup, -⟩ := ancestry_mirrors_lineage calls [.deriveAll] hcall
  exact ⟨hcall, hstmt, hmem "Stmt" ⟨1⟩ hstmt, hnodup⟩

end TreeSchema
