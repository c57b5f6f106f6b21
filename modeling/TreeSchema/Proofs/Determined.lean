/-
A schema is a function of grammar and configuration.

Which entities there are depends on what was asked for, and so do their numbers.  What an
entity is does not.  Each is the derivation of its kind, and as a kind declares one list
of contributions at most, the entities of one kind agree in any two schemas once the
targets of their relations are named by kind instead of by number.
-/
import TreeSchema.Proofs.Requests

namespace TreeSchema

namespace Schema

/-- The kind of the entity of the given number. -/
def kindOf? (s : Schema) (id : EntityId) : Option String := (s.entity? id).map Entity.kind

/-- A relation with its target named by kind. -/
def linkOf? (s : Schema) (r : Relation) : Option Link :=
  (s.kindOf? r.target).map fun target => ⟨r.name, r.multiplicity, target⟩

end Schema

variable {b : Blueprint} {s : Schema} {e : Entity}

theorem Consistent.kindOf?_of_idOf? (hc : Consistent b s) {kind : String} {id : EntityId}
    (h : s.idOf? kind = some id) : s.kindOf? id = some kind := by
  obtain ⟨x, hx, hk⟩ := hc.idOf?_eq_some_iff.mp h
  rw [Schema.kindOf?, hx, Option.map_some, hk]

/-- The relations of an entity, read back as links, are those it was given. -/
theorem Blueprint.Carries.map_linkOf? (hc : Consistent b s) {cs : List Contribution}
    (h : b.Carries s e cs) :
    e.relations.map s.linkOf? = (cs.filterMap Contribution.link?).map some := by
  have hrel := h.relations
  generalize cs.filterMap Contribution.link? = links at hrel ⊢
  generalize e.relations = relations at hrel ⊢
  induction hrel with
  | nil => rfl
  | @cons l r links rs hr _ ih =>
      have hlink : s.linkOf? r = some l := by
        rw [Schema.linkOf?, hc.kindOf?_of_idOf? hr.target, Option.map_some, hr.name,
          hr.multiplicity]
      rw [List.map_cons, List.map_cons, hlink, ih]

/-- The parent of an entity, read back as a kind, is the parent of its kind. -/
theorem Blueprint.Derives.bind_kindOf? (hc : Consistent b s) (h : b.Derives s e) :
    e.parent.bind s.kindOf? = b.grammar.parent? e.kind := by
  have hp := h.parent
  generalize b.grammar.parent? e.kind = parent at hp ⊢
  cases hp' : e.parent with
  | none => rw [hp'] at hp; cases hp; rfl
  | some id =>
      rw [hp'] at hp
      obtain ⟨kind, rfl, hid⟩ := exists_of_rel_some hp
      exact hc.kindOf?_of_idOf? hid

/-- Entities derived from one kind agree, whatever schemas they are in. -/
theorem derives_agree {s' : Schema} {e' : Entity} (hc : Consistent b s) (hc' : Consistent b s')
    (h : b.Derives s e) (h' : b.Derives s' e') (hkind : e'.kind = e.kind) :
    e'.name = e.name ∧ e'.parent.bind s'.kindOf? = e.parent.bind s.kindOf? ∧
      e'.properties = e.properties ∧ e'.relations.map s'.linkOf? = e.relations.map s.linkOf? := by
  obtain ⟨k, cs, hk, hds, hcs⟩ := h.features
  obtain ⟨k', cs', hk', hds', hcs'⟩ := h'.features
  rw [hkind, hk, Option.some.injEq] at hk'
  subst hk'
  obtain rfl := hds.unique hds'
  refine ⟨?_, ?_, ?_, ?_⟩
  · rw [h.name, h'.name, hkind]
  · rw [h.bind_kindOf? hc, h'.bind_kindOf? hc', hkind]
  · rw [hcs.properties, hcs'.properties]
  · rw [hcs.map_linkOf? hc, hcs'.map_linkOf? hc']

/--
**The schema is determined by grammar and configuration.**  After any requests, an entity
is exactly what they make of its kind: its name, its parent, its properties (the source
positions, then those that the slots emit, then those of the slots that are asked for) and
its relations in the same order.  After any other requests the entity of that kind is the
same, up to the numbers.
-/
theorem entity_determined (b : Blueprint) (requests : List Request) {id : EntityId} {e : Entity}
    (he : (b.served requests).entity? id = some e) :
    b.Derives (b.served requests) e ∧
      ∀ (others : List Request) (id' : EntityId) (e' : Entity),
        (b.served others).entity? id' = some e' → e'.kind = e.kind →
        e'.name = e.name ∧
        e'.parent.bind (b.served others).kindOf? = e.parent.bind (b.served requests).kindOf? ∧
        e'.properties = e.properties ∧
        e'.relations.map (b.served others).linkOf?
          = e.relations.map (b.served requests).linkOf? := by
  have h := b.finished_served requests
  refine ⟨h.derived he, fun others id' e' he' hkind => ?_⟩
  have h' := b.finished_served others
  exact derives_agree h.consistent h'.consistent (h.derived he) (h'.derived he') hkind

/-- The entity of calls, where expressions have the given number. -/
def callEntity (expression : Nat) : Entity :=
  ⟨⟨2⟩, "Call", "Call", some ⟨1⟩, false, [⟨"NAME", .string, .one⟩],
    [⟨"arg", .containment, .many, ⟨2⟩, ⟨expression⟩⟩]⟩

/-- Expressions come first when they are asked for, and last when all kinds are.  Calls are
what they are in both cases. -/
theorem entity_determined_call :
    (calls.served [.entityId "Expr"]).entity? ⟨2⟩ = some (callEntity 0) ∧
      (calls.served [.deriveAll]).entity? ⟨2⟩ = some (callEntity 3) ∧
      calls.Derives (calls.served [.entityId "Expr"]) (callEntity 0) ∧
      (callEntity 3).relations.map (calls.served [.deriveAll]).linkOf?
        = (callEntity 0).relations.map (calls.served [.entityId "Expr"]).linkOf? := by
  have h : (calls.served [.entityId "Expr"]).entity? ⟨2⟩ = some (callEntity 0) := by decide +kernel
  have h' : (calls.served [.deriveAll]).entity? ⟨2⟩ = some (callEntity 3) := by decide +kernel
  obtain ⟨hd, hagree⟩ := entity_determined calls [.entityId "Expr"] h
  exact ⟨h, h', hd, (hagree [.deriveAll] _ _ h' rfl).2.2.2⟩

end TreeSchema
