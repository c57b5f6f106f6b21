/-
What a successful derivation does to a schema.

It only adds, and every entity that is new is what grammar and configuration make of its
kind.  Entities that were only half built before stay half built, since whoever is building
them is waiting for this derivation to end.  `Grows` says all three.

The proof follows the derivation step by step for an arbitrary way of deriving other
kinds, and closes by induction on the levels that are left.  While the slots of one kind
are walked the invariant is `Underway`: the new entity carries exactly what the slots that
are done have emitted, and all entities after it are finished.  A derivation that fails
does so because the configuration is at fault or because it went too deep; no number it
comes across is ever without its entity.
-/
import TreeSchema.Proofs.Ancestry
import TreeSchema.Proofs.Growth
import TreeSchema.Proofs.Rollback

namespace TreeSchema

/-- The schema `s'` has all that `s` has, and what is new in it is finished. -/
structure Grows (b : Blueprint) (s s' : Schema) : Prop where
  consistent : Consistent b s'
  extends_ : s.Extends s'
  derived : ∀ {id e}, s.size ≤ id.index → s'.entity? id = some e → b.Derives s' e

namespace Grows

variable {b : Blueprint} {s s' s'' : Schema}

theorem refl (h : Consistent b s) : Grows b s s where
  consistent := h
  extends_ := .refl s
  derived hid he := absurd (Schema.index_lt he) (Nat.not_lt.mpr hid)

theorem trans (h : Grows b s s') (h' : Grows b s' s'') : Grows b s s'' where
  consistent := h'.consistent
  extends_ := h.extends_.trans h'.extends_
  derived := by
    intro id e hid he
    by_cases hlt : id.index < s'.size
    · obtain ⟨e', he', hg⟩ := h'.extends_.grown hlt he
      exact (h.derived hid he').mono h'.extends_ hg
    · exact h'.derived (Nat.not_lt.mp hlt) he

end Grows

/-- The faults for which a derivation fails. -/
def Blueprint.Faults (b : Blueprint) (e : Error) : Prop :=
  e.fault = .configuration ∨ e = .tooDeep b.config.maxDepth

/-- A way of deriving kinds under which schemas grow. -/
def Faithful (b : Blueprint) (derive : String → Drafting EntityId) : Prop :=
  ∀ (kind : String) (d : Draft), Consistent b d.schema →
    Ends (derive kind) d
      (fun id d' => Grows b d.schema d'.schema ∧ d'.schema.idOf? kind = some id)
      fun e _ => b.Faults e

/-! ### Single steps -/

theorem ends_markAbstract {E : Error → Draft → Prop} {d : Draft} {id : EntityId}
    (h : id.index < d.schema.size) :
    Ends (Drafting.markAbstract id) d
      (fun _ d' => d'.schema = d.schema.modify id Entity.markAbstract) E := by
  obtain ⟨e, he⟩ := Schema.entity?_of_lt h
  refine Ends.bind_get (Ends.bind_lift (fun e' he' => Ends.set ?_) fun err herr => ?_)
  · rw [Schema.entity_eq_ok_iff, he, Option.some.injEq] at he'
    subst he'
    unfold Draft.mark
    split
    · next ha =>
      -- the mark that is already there is not made again
      refine (Schema.modify_eq_self fun e' he' => ?_).symm
      rw [he, Option.some.injEq] at he'
      subst he'
      cases e
      cases ha
      rfl
    · rfl
  · rw [Schema.entity_eq_ok_iff.mpr he] at herr
    cases herr

theorem ends_amend {E : Error → Draft → Prop} {Q : Unit → Draft → Prop} {d : Draft}
    {id : EntityId} {e : Entity} {change : Entity → Except Error Entity}
    (he : d.schema.entity? id = some e)
    (hok : ∀ e', change e = .ok e' →
      Q () { d with schema := d.schema.modify id fun _ => e' })
    (herr : ∀ err, change e = .error err → E err d) : Ends (Drafting.amend id change) d Q E := by
  refine Ends.bind_get (Ends.bind_lift (fun e' he' => ?_) fun err h => ?_)
  · rw [Schema.entity_eq_ok_iff, he, Option.some.injEq] at he'
    subst he'
    exact Ends.bind_lift (fun e' he' => Ends.set (hok e' he')) herr
  · rw [Schema.entity_eq_ok_iff.mpr he] at h
    cases h

/-! ### The features of a new entity -/

/-- While the features of the entity `id` for the kind `k` come in, `cs` being those that
are there: `s` is the schema before that entity, and all after it are finished. -/
structure Underway (b : Blueprint) (s : Schema) (id : EntityId) (k : Kind)
    (cs : List Contribution) (s' : Schema) : Prop where
  consistent : Consistent b s'
  extends_ : s.Extends s'
  entity : ∃ e, s'.entity? id = some e ∧ e.kind = k.name ∧
    e.name = b.config.entityName k.name ∧
    Option.Rel (fun kind p => s'.idOf? kind = some p) (b.grammar.parent? k.name) e.parent ∧
    b.Carries s' e cs
  derived : ∀ {j e}, id.index < j.index → s'.entity? j = some e → b.Derives s' e

namespace Underway

variable {b : Blueprint} {s s' s'' : Schema} {id : EntityId} {k : Kind}
  {cs : List Contribution}

/-- Deriving other kinds in between does not disturb the entity. -/
theorem grow (h : Underway b s id k cs s') (hg : Grows b s' s'') : Underway b s id k cs s'' where
  consistent := hg.consistent
  extends_ := h.extends_.trans hg.extends_
  entity := by
    obtain ⟨e, he, hkind, hname, hparent, hcs⟩ := h.entity
    obtain ⟨e', he', hge⟩ := hg.extends_.entity he
    refine ⟨e', he', hge.kind_eq.trans hkind, hge.name_eq.trans hname, ?_, hcs.mono hg.extends_ hge⟩
    rw [hge.parent_eq]
    exact rel_imp hparent fun _ _ hp => hg.extends_.idOf? hp
  derived := by
    intro j e hj he
    by_cases hlt : j.index < s'.size
    · obtain ⟨e', he', hge⟩ := hg.extends_.grown hlt he
      exact (h.derived hj he').mono hg.extends_ hge
    · exact hg.derived (Nat.not_lt.mp hlt) he

/-- A slot that emits nothing leaves the entity as it is. -/
theorem nothing (h : Underway b s id k cs s') : Underway b s id k (cs ++ [.nothing]) s' :=
  { h with
    entity := by
      obtain ⟨e, he, hkind, hname, hparent, hcs⟩ := h.entity
      exact ⟨e, he, hkind, hname, hparent, hcs.nothing⟩ }

/-- The entity with changed features takes its place; what the others derive from does not
depend on it. -/
theorem amend (h : Underway b s id k cs s') (hid : s.size ≤ id.index) {e e' : Entity}
    {cs' : List Contribution} (he : s'.entity? id = some e) (hsame : e'.id = e.id ∧
      e'.name = e.name ∧ e'.kind = e.kind ∧ e'.parent = e.parent ∧ e'.isAbstract = e.isAbstract)
    (hrel : ∀ r ∈ e'.relations, r.kind = .containment ∧ r.source = id ∧ r.target.index < s'.size)
    (hnames : (e'.features.map Feature.name).Nodup) (hcs : b.Carries s' e' cs') :
    Underway b s id k cs' (s'.modify id fun _ => e') := by
  obtain ⟨hi, hn, hk, hp, ha⟩ := hsame
  obtain ⟨e₀, he₀, hkind, hname, hparent, -⟩ := h.entity
  rw [he, Option.some.injEq] at he₀
  subst he₀
  -- nothing below is read off the entities, only off the numbers of kinds
  have hcarries : ∀ {x : Entity} {ds}, b.Carries s' x ds →
      b.Carries (s'.modify id fun _ => e') x ds := fun hx =>
    { hx with relations := hx.relations.imp fun _ _ hr => { hr with target := hr.target } }
  refine
    { consistent := h.consistent.modify he hi hk hp ha hrel hnames
      extends_ := h.extends_.modify hid
      entity := ⟨e', ?_, hk.trans hkind, hn.trans hname, ?_, hcarries hcs⟩
      derived := ?_ }
  · rw [Schema.entity?_modify_self, he]
    rfl
  · rw [hp]
    exact hparent
  · intro j x hj hx
    have hne : id ≠ j := fun hij => by subst hij; exact Nat.lt_irrefl _ hj
    rw [Schema.entity?_modify_ne hne] at hx
    have hd := h.derived hj hx
    obtain ⟨k', ds, hk', hds, hx'⟩ := hd.features
    exact { hd with features := ⟨k', ds, hk', hds, hcarries hx'⟩ }

end Underway

/-! ### The slots of a kind -/

section Slots

variable {b : Blueprint} {derive : String → Drafting EntityId} {s : Schema} {id : EntityId}
  {k : Kind} {cs : List Contribution} {d : Draft}

theorem ends_addProperty (hid : s.size ≤ id.index) (h : Underway b s id k cs d.schema)
    (p : Property) :
    Ends (Drafting.amend id (·.addProperty p)) d
      (fun _ d' => Underway b s id k (cs ++ [.property p]) d'.schema) fun e _ => b.Faults e := by
  obtain ⟨e, he, -, -, -, hcs⟩ := h.entity
  refine ends_amend he (fun e' he' => ?_) fun err herr => .inl (Entity.fault_of_addProperty herr)
  obtain ⟨hfresh, rfl⟩ := Entity.addProperty_eq_ok_iff.mp he'
  exact h.amend hid he ⟨rfl, rfl, rfl, rfl, rfl⟩ (fun r hr => h.consistent.containment he hr)
    (Entity.nodup_names_addProperty (h.consistent.names he) hfresh) (hcs.property p)

theorem ends_addRelation (hid : s.size ≤ id.index) (h : Underway b s id k cs d.schema)
    {name target : String} {m : Multiplicity} {t : EntityId} (ht : d.schema.idOf? target = some t) :
    Ends (Drafting.amend id (·.addRelation ⟨name, .containment, m, id, t⟩)) d
      (fun _ d' => Underway b s id k (cs ++ [.relation name m target]) d'.schema)
      fun e _ => b.Faults e := by
  obtain ⟨e, he, -, -, -, hcs⟩ := h.entity
  refine ends_amend he (fun e' he' => ?_) fun err herr => .inl (Entity.fault_of_addRelation herr)
  obtain ⟨hfresh, rfl⟩ := Entity.addRelation_eq_ok_iff.mp he'
  have hnumber : e.id = id := h.consistent.numbered he
  refine h.amend hid he ⟨rfl, rfl, rfl, rfl, rfl⟩ (fun r hr => ?_)
    (Entity.nodup_names_addRelation (h.consistent.names he) hfresh) ?_
  · rcases List.mem_append.mp hr with hr | hr
    · exact h.consistent.containment he hr
    · rw [List.mem_singleton] at hr
      subst hr
      exact ⟨rfl, rfl, h.consistent.index_lt_of_idOf? ht⟩
  · rw [← hnumber]
    exact hcs.relation ht

theorem ends_contribute (hd : Faithful b derive) (hid : s.size ≤ id.index)
    (h : Underway b s id k cs d.schema) (slot : Slot) :
    Ends (b.contribute derive id k.name slot) d
      (fun _ d' => ∃ c, b.Emits k.name slot c ∧ Underway b s id k (cs ++ [c]) d'.schema)
      fun e _ => b.Faults e := by
  refine Ends.bind_lift (fun c hc => ?_) fun err herr => .inl (Blueprint.fault_of_contribution herr)
  have hemits : b.Emits k.name slot c := Blueprint.emits_of_contribution hc
  cases c with
  | nothing => exact Ends.pure ⟨_, hemits, h.nothing⟩
  | property p =>
      exact (ends_addProperty hid h p).imp fun _ _ h' => ⟨_, hemits, h'⟩
  | relation name m target =>
      refine (hd target d h.consistent).bind fun t d' ht => ?_
      exact (ends_addRelation hid (h.grow ht.1) ht.2).imp fun _ _ h' => ⟨_, hemits, h'⟩

theorem ends_contributeForced (hd : Faithful b derive) (hid : s.size ≤ id.index)
    (h : Underway b s id k cs d.schema) (name : String) :
    Ends (b.contributeForced derive id k name) d
      (fun _ d' => ∃ c, b.Forces k name c ∧ Underway b s id k (cs ++ [c]) d'.schema)
      fun e _ => b.Faults e := by
  unfold Blueprint.contributeForced
  cases hs : k.slot? name with
  | none => exact Ends.throw (.inl rfl)
  | some slot =>
      refine (ends_contribute hd hid h slot).imp fun _ _ h' => ?_
      obtain ⟨c, hc, hfill⟩ := h'
      exact ⟨c, ⟨slot, hs, hc⟩, hfill⟩

/-- Along a list of slots or names, one contribution comes in for each. -/
theorem ends_fill {β : Type} {R : β → Contribution → Prop} {step : β → Drafting PUnit}
    (hstep : ∀ x cs d, Underway b s id k cs d.schema →
      Ends (step x) d (fun _ d' => ∃ c, R x c ∧ Underway b s id k (cs ++ [c]) d'.schema)
        fun e _ => b.Faults e)
    (l : List β) (h : Underway b s id k cs d.schema) :
    Ends (l.forM step) d
      (fun _ d' => ∃ ds, List.Forall₂ R l ds ∧ Underway b s id k (cs ++ ds) d'.schema)
      fun e _ => b.Faults e := by
  refine Ends.forM
    (I := fun done (d' : Draft) =>
      ∃ ds, List.Forall₂ R done ds ∧ Underway b s id k (cs ++ ds) d'.schema)
    ⟨[], .nil, by simpa using h⟩ fun done x d' _ hdone => ?_
  obtain ⟨ds, hds, hfill⟩ := hdone
  refine (hstep x _ d' hfill).imp fun _ _ h' => ?_
  obtain ⟨c, hc, hfill'⟩ := h'
  exact ⟨ds ++ [c], List.rel_append hds (.cons hc .nil), by simpa using hfill'⟩

end Slots

/-! ### One kind, and all that it leads to -/

/-- A new entity is finished once all slots of its kind are done. -/
theorem Underway.grows {b : Blueprint} {s s' : Schema} {k : Kind} {ws fs : List Contribution}
    (h : Underway b s ⟨s.size⟩ k (ws ++ fs) s') (hk : b.grammar.kind? k.name = some k)
    (hw : List.Forall₂ (b.Emits k.name) k.exposedSlots ws)
    (hf : List.Forall₂ (b.Forces k) (b.config.rule k.name).forced fs) : Grows b s s' where
  consistent := h.consistent
  extends_ := h.extends_
  derived := by
    intro j e hj he
    by_cases hjs : j = ⟨s.size⟩
    · subst hjs
      obtain ⟨e', he', hkind, hname, hparent, hcs⟩ := h.entity
      rw [he, Option.some.injEq] at he'
      subst he'
      obtain ⟨walked, hwalked, hprops, hlinks⟩ := Blueprint.exists_walks_of_exposed hw
      rw [← hkind] at hname hparent
      refine ⟨hname, hparent, k, walked ++ fs, ?_, ⟨walked, fs, rfl, hwalked, hf⟩, ?_, ?_⟩
      · rw [hkind, hk]
      · rw [hcs.properties, List.filterMap_append, List.filterMap_append, hprops]
      · rw [List.filterMap_append, hlinks, ← List.filterMap_append]
        exact hcs.relations
    · have hne : j.index ≠ s.size := fun h => hjs (EntityId.ext_iff.mpr h)
      exact h.derived (Nat.lt_of_le_of_ne hj (Ne.symm hne)) he

namespace Blueprint

variable {b : Blueprint} {derive : String → Drafting EntityId} {d : Draft}

theorem nodup_names_outline (id : EntityId) (kind : String) (p : Option EntityId) :
    ((b.outline id kind p).features.map Feature.name).Nodup := by
  have hnames : (b.outline id kind p).features.map Feature.name
      = (if b.config.positions then positionalProperties else []).map Property.name := by
    simp [outline, Entity.features, Entity.blank, Function.comp_def, Feature.name]
  rw [hnames]
  split
  · decide
  · exact .nil

/-- A new entity is under way as soon as it is there, with nothing in it. -/
theorem underway_outline {k : Kind} (hk : b.grammar.kind? k.name = some k)
    (hmap : k.name ∉ b.config.transparent ∧ k.name ∉ b.config.flattened ∧
      k.name ∉ b.config.dropped)
    {s : Schema} (hs : Consistent b s) (hfresh : s.idOf? k.name = none) {p : Option EntityId}
    (hp : Option.Rel (fun kind p => s.idOf? kind = some p) (b.grammar.parent? k.name) p) :
    Underway b s ⟨s.size⟩ k [] (s.adopt (b.outline ⟨s.size⟩ k.name p)) := by
  have hext : s.Extends (s.adopt (b.outline ⟨s.size⟩ k.name p)) := .adopt hfresh
  exact
    { consistent := hs.adopt rfl hfresh hmap ⟨k, hk⟩ hp rfl (nodup_names_outline _ _ _) rfl
      extends_ := hext
      entity := ⟨_, Schema.entity?_adopt_new, rfl, rfl, rel_imp hp fun _ _ h => hext.idOf? h,
        carries_outline _ _ _ _⟩
      derived := by
        intro j x hj hx
        have hlt := Schema.index_lt hx
        rw [Schema.size_adopt] at hlt
        have hj' : s.size < j.index := hj
        omega }

/-- The new entity joins the schema in which its parent is abstract. -/
theorem ends_add {E : Error → Draft → Prop} {s : Schema} {p : Option EntityId} {kind : String}
    (hschema : d.schema = s.markParent p) :
    Ends (Drafting.add fun id => b.outline id kind p) d
      (fun id d' => id = ⟨s.size⟩ ∧ d'.schema = s.adopt (b.outline ⟨s.size⟩ kind p)) E := by
  have hsize : d.schema.size = s.size := by rw [hschema, Schema.size_markParent]
  have hadopt : d.schema.push (b.outline ⟨d.schema.size⟩ kind p)
      = s.adopt (b.outline ⟨s.size⟩ kind p) := by
    rw [hsize, hschema]
    rfl
  exact ⟨by rw [hsize], hadopt⟩

theorem ends_deriveNew (hd : Faithful b derive) {k : Kind} (hk : b.grammar.kind? k.name = some k)
    (hmap : k.name ∉ b.config.transparent ∧ k.name ∉ b.config.flattened ∧
      k.name ∉ b.config.dropped)
    {s : Schema} (hs : Consistent b s) (hfresh : s.idOf? k.name = none) {p : Option EntityId}
    (hp : Option.Rel (fun kind p => s.idOf? kind = some p) (b.grammar.parent? k.name) p)
    (hschema : d.schema = s.markParent p) :
    Ends (b.deriveNew derive k p) d
      (fun id d' => Grows b s d'.schema ∧ d'.schema.idOf? k.name = some id)
      fun e _ => b.Faults e := by
  have hstart := underway_outline hk hmap hs hfresh hp
  refine (ends_add hschema).bind fun id d₁ h₁ => ?_
  obtain ⟨rfl, h₁⟩ := h₁
  have hwalk := ends_fill (R := b.Emits k.name)
    (fun slot cs d h => ends_contribute hd (Nat.le_refl _) h slot) k.exposedSlots (h₁ ▸ hstart)
  refine hwalk.bind fun _ d₂ h₂ => ?_
  obtain ⟨ws, hws, hfill⟩ := h₂
  have hforce := ends_fill (R := b.Forces k)
    (fun name cs d h => ends_contributeForced hd (Nat.le_refl _) h name)
    (b.config.rule k.name).forced hfill
  refine hforce.bind fun _ d₃ h₃ => ?_
  obtain ⟨fs, hfs, hfill'⟩ := h₃
  rw [List.nil_append] at hfill'
  obtain ⟨e', he', hkind, -⟩ := hfill'.entity
  have hid := hfill'.consistent.idOf?_eq_some_iff.mpr ⟨e', he', hkind⟩
  exact Ends.pure ⟨hfill'.grows hk hws hfs, hid⟩

theorem ends_deriveParent (hd : Faithful b derive) (kind : String) (hs : Consistent b d.schema) :
    Ends (b.deriveParent derive kind) d
      (fun p d' => ∃ s, Grows b d.schema s ∧ d'.schema = s.markParent p ∧
        Option.Rel (fun kind p => s.idOf? kind = some p) (b.grammar.parent? kind) p)
      fun e _ => b.Faults e := by
  unfold deriveParent
  cases hp : b.grammar.parent? kind with
  | none => exact Ends.pure ⟨d.schema, .refl hs, rfl, .none⟩
  | some parent =>
      refine (hd parent d hs).bind fun id d₁ h₁ => ?_
      have hlt : id.index < d₁.schema.size := h₁.1.consistent.index_lt_of_idOf? h₁.2
      refine (ends_markAbstract hlt).bind fun _ d₂ h₂ => ?_
      exact Ends.pure ⟨d₁.schema, h₁.1, h₂, .some h₁.2⟩

/-- The parent of an entity that is there is abstract already. -/
theorem markParent_eq_self {s : Schema} (hs : Consistent b s) {kind : String} {id : EntityId}
    {p : Option EntityId} (hid : s.idOf? kind = some id)
    (hp : Option.Rel (fun kind p => s.idOf? kind = some p) (b.grammar.parent? kind) p) :
    s.markParent p = s := by
  cases p with
  | none => rfl
  | some p =>
      obtain ⟨parent, hparent, hpid⟩ := exists_of_rel_some hp
      obtain ⟨q, hq, hqid, -⟩ := hs.exists_parent hid hparent
      obtain ⟨e, he, hep⟩ := Option.bind_eq_some_iff.mp hq
      rw [← hqid, hpid] at hep
      refine Schema.modify_eq_self fun e' he' => ?_
      have habs : e'.isAbstract = true := (hs.isAbstract_iff he').mpr ⟨id, e, he, hep⟩
      cases e'
      cases habs
      rfl

theorem ends_deriveKind (hd : Faithful b derive) {kind : String}
    (hmap : kind ∉ b.config.transparent ∧ kind ∉ b.config.flattened ∧ kind ∉ b.config.dropped)
    (hs : Consistent b d.schema) :
    Ends (b.deriveKind derive kind) d
      (fun id d' => Grows b d.schema d'.schema ∧ d'.schema.idOf? kind = some id)
      fun e _ => b.Faults e := by
  refine Ends.bind_lift (fun k hk => ?_) fun err herr => .inl (fault_of_kind herr)
  rw [Grammar.kind_eq_ok_iff] at hk
  have hname : k.name = kind := Grammar.name_of_kind?_eq_some hk
  refine (ends_deriveParent hd kind hs).bind fun p d₁ h₁ => Ends.bind_get ?_
  obtain ⟨s, hgrows, hschema, hp⟩ := h₁
  cases hid : d₁.schema.idOf? kind with
  | some id =>
      -- the slots of the parent led back to the kind
      rw [hschema, Schema.idOf?_markParent] at hid
      rw [markParent_eq_self hgrows.consistent hid hp] at hschema
      rw [← hschema] at hgrows hid
      exact Ends.pure ⟨hgrows, hid⟩
  | none =>
      rw [hschema, Schema.idOf?_markParent] at hid
      rw [← hname] at hk hid hmap hp
      refine (ends_deriveNew hd hk hmap hgrows.consistent hid hp hschema).imp fun id d' h => ?_
      exact ⟨hgrows.trans h.1, hname ▸ h.2⟩

theorem exclusion?_eq_none_iff {c : Config} {kind : String} :
    c.exclusion? kind = none ↔ kind ∉ c.transparent ∧ kind ∉ c.flattened ∧ kind ∉ c.dropped := by
  unfold Config.exclusion? Config.isTransparent Config.isFlattened Config.isDropped
  by_cases ht : kind ∈ c.transparent
  · simp [ht]
  · by_cases hf : kind ∈ c.flattened
    · simp [ht, hf]
    · by_cases hd : kind ∈ c.dropped <;> simp [ht, hf, hd]

theorem ends_lookUpOr {kind : String} {make : Drafting EntityId} (hs : Consistent b d.schema)
    (hmake : b.config.exclusion? kind = none →
      Ends make d (fun id d' => Grows b d.schema d'.schema ∧ d'.schema.idOf? kind = some id)
        fun e _ => b.Faults e) :
    Ends (b.lookUpOr kind make) d
      (fun id d' => Grows b d.schema d'.schema ∧ d'.schema.idOf? kind = some id)
      fun e _ => b.Faults e := by
  unfold lookUpOr
  cases hx : b.config.exclusion? kind with
  | some why => exact Ends.throw (.inl rfl)
  | none =>
      refine Ends.bind_get ?_
      cases hid : d.schema.idOf? kind with
      | some id => exact Ends.pure ⟨.refl hs, hid⟩
      | none => exact hmake hx

/-- With any number of levels, deriving a kind makes the schema grow. -/
theorem faithful_derive (levels : Nat) : Faithful b (b.derive levels) := by
  induction levels with
  | zero => exact fun kind d hs => ends_lookUpOr hs fun _ => Ends.throw (.inr rfl)
  | succ levels ih =>
      intro kind d hs
      exact ends_lookUpOr hs fun hx => ends_deriveKind ih (exclusion?_eq_none_iff.mp hx) hs

/-- A request for an entity: the schema grows, or stays as it was. -/
theorem ends_entityId (kind : String) {s : Schema} (hs : Consistent b s) :
    Ends (b.entityId kind) s (fun id s' => Grows b s s' ∧ s'.idOf? kind = some id)
      fun e s' => s' = s ∧ b.Faults e := by
  have h := faithful_derive (b.config.maxDepth + 1) kind ⟨s, []⟩ hs
  have hback : ∀ {e s'}, b.entityId kind s = .error e s' → s' = s :=
    eq_of_entityId_error fun _ _ hid => hs.index_lt_of_idOf? hid
  unfold Ends at *
  unfold entityId at *
  cases hd : b.derive (b.config.maxDepth + 1) kind ⟨s, []⟩ with
  | ok id d =>
      rw [hd] at h
      exact h
  | error e d =>
      rw [hd] at h hback
      exact ⟨hback rfl, h⟩

end Blueprint

end TreeSchema
