/-
The listing of a schema is a function of its kinds.

Numbers do not show in a listing: parents and targets are written by name, and an entity has
the name that the configuration gives its kind.  That an entity is abstract depends on the
kinds around it only, since it is so exactly if a kind with an entity derives from its own.
The order is that of the names.  So, if no two entities share a name, there is just one way to
list the entities of some kinds, whatever was asked for to get them.
-/
import TreeSchema.Proofs.Determined
import TreeSchema.Proofs.Discovery
import TreeSchema.Schema.Listing

namespace TreeSchema

/-- Lists that agree under one reading of their entries agree under a finer one. -/
theorem map_eq_map_of_map_eq_map {α β γ δ : Type} {f : α → γ} {g : β → γ} {u : α → δ} {v : β → δ}
    {l : List α} {l' : List β} (h : l.map f = l'.map g)
    (hfiner : ∀ a ∈ l, ∀ c ∈ l', f a = g c → u a = v c) : l.map u = l'.map v := by
  induction l generalizing l' with
  | nil =>
      obtain rfl := List.map_eq_nil_iff.mp h.symm
      rfl
  | cons a l ih =>
      cases l' with
      | nil => cases h
      | cons c l' =>
          rw [List.map_cons, List.map_cons, List.cons.injEq] at h
          have hhead : u a = v c := hfiner a List.mem_cons_self c List.mem_cons_self h.1
          have htail : l.map u = l'.map v := ih h.2 fun a ha c hc =>
            hfiner a (List.mem_cons_of_mem _ ha) c (List.mem_cons_of_mem _ hc)
          rw [List.map_cons, List.map_cons, hhead, htail]

/-! ### The order of a listing -/

namespace Schema

variable {s s' : Schema} {e : Entity}

theorem mem_entities_iff : e ∈ s.entities.toList ↔ ∃ id, s.entity? id = some e := by
  rw [List.mem_iff_getElem?]
  constructor
  · rintro ⟨i, h⟩
    exact ⟨⟨i⟩, by rw [entity?, ← Array.getElem?_toList, h]⟩
  · rintro ⟨id, h⟩
    exact ⟨id.index, by rw [Array.getElem?_toList, ← h, entity?]⟩

theorem perm_byName : s.byName.Perm s.entities.toList := List.mergeSort_perm _ _

theorem pairwise_byName : (s.byName.map Entity.name).Pairwise (· ≤ ·) := by
  rw [List.pairwise_map]
  apply List.Pairwise.imp fun {_ _} h => of_decide_eq_true h
  apply List.pairwise_mergeSort
  · intro a c d hac hcd
    exact decide_eq_true (String.le_trans (of_decide_eq_true hac) (of_decide_eq_true hcd))
  · intro a c
    rw [Bool.or_eq_true, decide_eq_true_eq, decide_eq_true_eq]
    exact String.le_total a.name c.name

/-- Schemas with the same names list them in the same order. -/
theorem map_name_byName (h : (s.entities.toList.map Entity.name).Perm
    (s'.entities.toList.map Entity.name)) :
    s.byName.map Entity.name = s'.byName.map Entity.name := by
  have hperm : (s.byName.map Entity.name).Perm (s'.byName.map Entity.name) :=
    (perm_byName.map _).trans (h.trans (perm_byName.map _).symm)
  exact hperm.eq_of_pairwise (fun _ _ _ _ h₁ h₂ => String.le_antisymm h₁ h₂) pairwise_byName
    pairwise_byName

end Schema

/-! ### The text of one entity -/

/-- The line of a relation whose target is named by its kind. -/
def Blueprint.linkLine (b : Blueprint) (l : Link) : String :=
  s!"    relation {l.name} -> {b.config.entityName l.target}{l.multiplicity.star}\n"

namespace Finished

variable {b : Blueprint} {s s' : Schema} {e e' : Entity} {kind : String} {id : EntityId}

theorem nameOf_of_idOf? (h : Finished b s) (hid : s.idOf? kind = some id) :
    s.nameOf id = b.config.entityName kind := by
  obtain ⟨e, he, rfl⟩ := h.consistent.idOf?_eq_some_iff.mp hid
  rw [Schema.nameOf, he, ← (h.derived he).name]
  rfl

theorem map_nameOf_parent (h : Finished b s) (hd : b.Derives s e) :
    e.parent.map s.nameOf = (b.grammar.parent? e.kind).map b.config.entityName := by
  have hp := hd.parent
  generalize b.grammar.parent? e.kind = parent at hp ⊢
  generalize e.parent = p at hp ⊢
  cases hp with
  | none => rfl
  | some hid => rw [Option.map_some, Option.map_some, h.nameOf_of_idOf? hid]

theorem map_relationLine (h : Finished b s) {cs : List Contribution} (hcs : b.Carries s e cs) :
    e.relations.map s.relationLine = (cs.filterMap Contribution.link?).map b.linkLine := by
  have hrel := hcs.relations
  generalize cs.filterMap Contribution.link? = links at hrel ⊢
  generalize e.relations = relations at hrel ⊢
  induction hrel with
  | nil => rfl
  | @cons l r links rs hr _ ih =>
      have hline : s.relationLine r = b.linkLine l := by
        unfold Schema.relationLine Blueprint.linkLine
        rw [h.nameOf_of_idOf? hr.target, hr.name, hr.multiplicity]
      rw [List.map_cons, List.map_cons, hline, ih]

/-- An entity is abstract if a kind that has an entity derives from its own. -/
theorem isAbstract_iff_exists_kind (h : Finished b s) (he : s.entity? id = some e) :
    e.isAbstract = true ↔ ∃ kind ∈ s.kinds, b.grammar.DerivesFrom kind e.kind := by
  rw [h.consistent.isAbstract_iff he]
  constructor
  · rintro ⟨j, c, hc, hp⟩
    obtain ⟨parent, hparent, hid, -⟩ := h.consistent.exists_parent_kind hc hp
    obtain ⟨e', he', rfl⟩ := h.consistent.idOf?_eq_some_iff.mp hid
    rw [he, Option.some.injEq] at he'
    subst he'
    exact ⟨c.kind, Schema.mem_kinds_iff.mpr
      ⟨j, h.consistent.idOf?_eq_some_iff.mpr ⟨c, hc, rfl⟩⟩, hparent⟩
  · rintro ⟨kind, hkind, hderives⟩
    obtain ⟨j, hj⟩ := Schema.mem_kinds_iff.mp hkind
    obtain ⟨p, hp, hpid, -⟩ := h.consistent.exists_parent hj hderives
    obtain ⟨c, hc, hcp⟩ := Option.bind_eq_some_iff.mp hp
    have hid := h.consistent.idOf?_eq_some_iff.mpr ⟨e, he, rfl⟩
    rw [hid, Option.some.injEq] at hpid
    exact ⟨j, c, hc, hpid ▸ hcp⟩

/-- Where the same kinds have entities, those of one kind are written alike. -/
theorem listEntity_eq (h : Finished b s) (h' : Finished b s') (hkinds : s.kinds = s'.kinds)
    {id' : EntityId} (he : s.entity? id = some e) (he' : s'.entity? id' = some e')
    (hkind : e.kind = e'.kind) (positions : Bool) :
    s.listEntity positions e = s'.listEntity positions e' := by
  obtain ⟨k, cs, hk, hds, hcs⟩ := (h.derived he).features
  obtain ⟨k', cs', hk', hds', hcs'⟩ := (h'.derived he').features
  rw [← hkind, hk, Option.some.injEq] at hk'
  subst hk'
  obtain rfl := hds.unique hds'
  have hname : e.name = e'.name := by rw [(h.derived he).name, (h'.derived he').name, hkind]
  have habstract : e.isAbstract = e'.isAbstract := by
    rw [Bool.eq_iff_iff, h.isAbstract_iff_exists_kind he, h'.isAbstract_iff_exists_kind he',
      hkinds, hkind]
  have hparent : e.parent.map s.nameOf = e'.parent.map s'.nameOf := by
    rw [h.map_nameOf_parent (h.derived he), h'.map_nameOf_parent (h'.derived he'), hkind]
  have hhead : s.headLine e = s'.headLine e' := by
    unfold Schema.headLine
    rw [hname, habstract]
    generalize e.parent = p at hparent ⊢
    generalize e'.parent = p' at hparent ⊢
    cases p <;> cases p' <;> simp_all
  unfold Schema.listEntity
  rw [hhead, h.map_relationLine hcs, h'.map_relationLine hcs', hcs.properties, hcs'.properties]

/-! ### All entities -/

theorem mem_map_kind_iff (h : Finished b s) :
    kind ∈ s.entities.toList.map Entity.kind ↔ kind ∈ s.kinds := by
  rw [List.mem_map, Schema.mem_kinds_iff]
  constructor
  · rintro ⟨e, he, rfl⟩
    obtain ⟨id, he⟩ := Schema.mem_entities_iff.mp he
    exact ⟨id, h.consistent.idOf?_eq_some_iff.mpr ⟨e, he, rfl⟩⟩
  · rintro ⟨id, hid⟩
    obtain ⟨e, he, rfl⟩ := h.consistent.idOf?_eq_some_iff.mp hid
    exact ⟨e, Schema.mem_entities_iff.mpr ⟨id, he⟩, rfl⟩

/-- No two entities have one kind. -/
theorem nodup_map_kind (h : Finished b s) : (s.entities.toList.map Entity.kind).Nodup := by
  rw [List.nodup_iff_getElem?_ne_getElem?]
  intro i j hij hj heq
  rw [List.length_map, Array.length_toList] at hj
  obtain ⟨e, he⟩ : ∃ e, s.entity? ⟨i⟩ = some e := Schema.entity?_of_lt (Nat.lt_trans hij hj)
  obtain ⟨c, hc⟩ : ∃ c, s.entity? ⟨j⟩ = some c := Schema.entity?_of_lt hj
  have hkind : e.kind = c.kind := by
    rw [List.getElem?_map, List.getElem?_map, Array.getElem?_toList, Array.getElem?_toList] at heq
    rw [show s.entities[i]? = some e from he, show s.entities[j]? = some c from hc] at heq
    simpa using heq
  have hi := h.consistent.idOf?_eq_some_iff.mpr ⟨e, he, rfl⟩
  have hj := h.consistent.idOf?_eq_some_iff.mpr ⟨c, hc, rfl⟩
  rw [hkind, hj, Option.some.injEq, EntityId.mk.injEq] at hi
  omega

theorem map_name_eq (h : Finished b s) :
    s.entities.toList.map Entity.name
      = (s.entities.toList.map Entity.kind).map b.config.entityName := by
  rw [List.map_map]
  refine List.map_congr_left fun e he => ?_
  obtain ⟨id, he⟩ := Schema.mem_entities_iff.mp he
  exact (h.derived he).name

end Finished

/--
**A listing does not depend on the order of requests.**  After any two rows of requests that
leave entities for the same kinds, with no name given twice, the listings are the same, with
and without source positions.
-/
theorem listing_independent (b : Blueprint) {requests others : List Request}
    (hkinds : (b.served requests).kinds = (b.served others).kinds)
    (hnames : ((b.served requests).entities.toList.map Entity.name).Nodup) (positions : Bool) :
    (b.served requests).listing positions = (b.served others).listing positions := by
  have h := b.finished_served requests
  have h' := b.finished_served others
  generalize b.served requests = s at *
  generalize b.served others = s' at *
  have hperm : (s.entities.toList.map Entity.kind).Perm (s'.entities.toList.map Entity.kind) := by
    rw [List.perm_ext_iff_of_nodup h.nodup_map_kind h'.nodup_map_kind]
    intro kind
    rw [h.mem_map_kind_iff, h'.mem_map_kind_iff, hkinds]
  have horder : s.byName.map Entity.name = s'.byName.map Entity.name := by
    refine Schema.map_name_byName ?_
    rw [h.map_name_eq, h'.map_name_eq]
    exact hperm.map _
  have htexts :
      s.byName.map (s.listEntity positions) = s'.byName.map (s'.listEntity positions) := by
    refine map_eq_map_of_map_eq_map horder fun e he e' he' hname => ?_
    rw [Schema.perm_byName.mem_iff] at he he'
    obtain ⟨id, hid⟩ := Schema.mem_entities_iff.mp he
    obtain ⟨id', hid'⟩ := Schema.mem_entities_iff.mp he'
    -- the name belongs to one kind, since both schemas have the same kinds
    have hkind : e.kind = e'.kind := by
      have hmem : e'.kind ∈ s.entities.toList.map Entity.kind :=
        hperm.mem_iff.mpr (List.mem_map_of_mem he')
      obtain ⟨c, hc, hck⟩ := List.mem_map.mp hmem
      obtain ⟨j, hj⟩ := Schema.mem_entities_iff.mp hc
      have hsame : c.name = e.name := by
        rw [hname, (h.derived hj).name, (h'.derived hid').name, hck]
      rw [← List.inj_on_of_nodup_map hnames hc he hsame, hck]
    exact h.listEntity_eq h' hkinds hid hid' hkind positions
  unfold Schema.listing
  rw [htexts]

/-- Expressions come first or last, and stand in the same place of the listing. -/
theorem listing_independent_calls :
    (calls.served [.entityId "Expr", .entityId "Block"]).entities.toList.map Entity.name
        = ["Expr", "Stmt", "Call", "Block"] ∧
      (calls.served [.deriveAll]).entities.toList.map Entity.name
        = ["Block", "Stmt", "Call", "Expr"] ∧
      (calls.served [.entityId "Expr", .entityId "Block"]).listing true
        = (calls.served [.deriveAll]).listing true := by
  have hnames : (calls.served [.entityId "Expr", .entityId "Block"]).entities.toList.map Entity.name
      = ["Expr", "Stmt", "Call", "Block"] := by decide +kernel
  have hkinds : (calls.served [.entityId "Expr", .entityId "Block"]).kinds
      = (calls.served [.deriveAll]).kinds := by decide +kernel
  have hnodup : ((calls.served [.entityId "Expr", .entityId "Block"]).entities.toList.map
      Entity.name).Nodup := by
    rw [hnames]
    decide
  exact ⟨hnames, by decide +kernel, listing_independent calls hkinds hnodup true⟩

end TreeSchema
