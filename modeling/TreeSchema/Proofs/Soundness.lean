/-
Kinds that can have an entity.

Whether the derivation of a kind is refused can be said without deriving it.  A kind is
`Sound` if its own slots raise no objection: each contributes something, the slots asked for
by name are there, and no two features get one name.  It is `Buildable` if it and all kinds
that it leads to are sound, where a kind leads to its parent and to the targets of its
relations.

A schema is the proof of it.  Everything that a finished entity leads to has an entity too,
and an entity that is there has had its features put in one by one without a clash.
-/
import Mathlib.Logic.Relation
import TreeSchema.Proofs.Requests

namespace TreeSchema

/-- The name of the feature that a contribution makes. -/
def Contribution.name? : Contribution → Option String
  | nothing => none
  | property p => some p.name
  | relation name _ _ => some name

namespace Contribution

@[simp] theorem name?_nothing : nothing.name? = none := rfl

@[simp] theorem name?_property (p : Property) : (property p).name? = some p.name := rfl

@[simp] theorem name?_relation (name : String) (m : Multiplicity) (target : String) :
    (relation name m target).name? = some name := rfl

/-- The kind that a contribution leads to. -/
def target? (c : Contribution) : Option String := c.link?.map Link.target

/-- Features are named by their links and their properties. -/
theorem perm_filterMap_name? (cs : List Contribution) :
    (cs.filterMap name?).Perm
      ((cs.filterMap link?).map Link.name ++ (cs.filterMap property?).map Property.name) := by
  induction cs with
  | nil => exact .refl _
  | cons c cs ih =>
      cases c with
      | nothing => simpa [List.filterMap_cons] using ih
      | property p =>
          have hmiddle : (p.name :: ((cs.filterMap link?).map Link.name ++
              (cs.filterMap property?).map Property.name)).Perm
                ((cs.filterMap link?).map Link.name ++
                  p.name :: (cs.filterMap property?).map Property.name) :=
            List.perm_middle.symm
          simpa [List.filterMap_cons] using (ih.cons p.name).trans hmiddle
      | relation name m target => simpa [List.filterMap_cons] using ih.cons name

end Contribution

namespace Blueprint

variable {b : Blueprint} {k : Kind} {cs : List Contribution}

/-! ### One kind -/

/-- The slots that a kind contributes with: those that are exposed, then those asked for by
name. -/
def contributing (b : Blueprint) (k : Kind) : List Slot :=
  k.exposedSlots ++ (b.config.rule k.name).forced.filterMap k.slot?

/-- What a slot contributes, if that can be said. -/
def contribution? (b : Blueprint) (k : Kind) (s : Slot) : Option Contribution :=
  (b.contribution k.name s).toOption

/-- What the slots of a kind contribute. -/
def contributions (b : Blueprint) (k : Kind) : List Contribution :=
  (b.contributing k).filterMap (b.contribution? k)

/-- The kinds that the relations of a kind lead to. -/
def targets (b : Blueprint) (k : Kind) : List String :=
  (b.contributions k).filterMap Contribution.target?

/-- The properties that every entity has. -/
def positional (b : Blueprint) : List Property :=
  if b.config.positions then positionalProperties else []

/-- The names of the features of a kind. -/
def featureNames (b : Blueprint) (k : Kind) : List String :=
  b.positional.map Property.name ++ (b.contributions k).filterMap Contribution.name?

/-- Nothing about a kind itself keeps it from having an entity. -/
structure Sound (b : Blueprint) (k : Kind) : Prop where
  /-- The parent is not passed over. -/
  parent : ∀ p, b.grammar.parent? k.name = some p → b.config.exclusion? p = none
  slots : ∀ s ∈ b.contributing k, ∃ c, b.contribution k.name s = .ok c
  forced : ∀ name ∈ (b.config.rule k.name).forced, ∃ s, k.slot? name = some s
  names : (b.featureNames k).Nodup

theorem contribution?_eq_some_iff {s : Slot} {c : Contribution} :
    b.contribution? k s = some c ↔ b.Emits k.name s c := by
  rw [← contribution_eq_ok_iff, contribution?, toOption_eq_some_iff]

/-- A kind declares what its slots contribute, apart from slots that add nothing. -/
theorem Declares.filterMap_contributions {α : Type} (h : b.Declares k cs)
    {f : Contribution → Option α} (hf : f .nothing = none) :
    (b.contributions k).filterMap f = cs.filterMap f := by
  obtain ⟨walked, forced, rfl, hwalked, hforced⟩ := h
  have hexposed : (k.exposedSlots.filterMap (b.contribution? k)).filterMap f
      = walked.filterMap f := by
    unfold Kind.exposedSlots
    -- the kind stays whole, since shadowing looks at all of its slots
    generalize k.slots = slots at hwalked ⊢
    induction hwalked with
    | nil => rfl
    | @cons s c slots walked hw _ ih =>
        cases hw with
        | shadowed hs =>
            rw [List.filter_cons_of_neg (by simp [shadows_iff.mpr hs]),
              List.filterMap_cons_none hf, ih]
        | tokenLabel hs =>
            have hl := tokenLabel_iff.mpr hs
            rw [List.filter_cons_of_neg (by rw [hl]; simp), List.filterMap_cons_none hf, ih]
        | emitted hs ht he =>
            have hplain : k.shadows s = false := by
              rw [Bool.eq_false_iff]
              exact fun h => hs (shadows_iff.mp h)
            have hunlabelled : (!s.isDefault && s.isTerminal) = false := by
              rw [Bool.eq_false_iff]
              exact fun h => ht (tokenLabel_iff.mp h)
            rw [List.filter_cons_of_pos (by rw [hplain, hunlabelled]; rfl),
              List.filterMap_cons_some (contribution?_eq_some_iff.mpr he), List.filterMap_cons,
              List.filterMap_cons, ih]
  have hnamed : ((b.config.rule k.name).forced.filterMap k.slot?).filterMap (b.contribution? k)
      = forced := by
    generalize (b.config.rule k.name).forced = names at hforced ⊢
    induction hforced with
    | nil => rfl
    | cons hf _ ih =>
        obtain ⟨s, hs, he⟩ := hf
        rw [List.filterMap_cons_some hs,
          List.filterMap_cons_some (contribution?_eq_some_iff.mpr he), ih]
  rw [contributions, contributing, List.filterMap_append, List.filterMap_append, hexposed, hnamed,
    List.filterMap_append]

/-- All slots that a kind contributes with contribute something, if it declares anything. -/
theorem Declares.exists_contribution (h : b.Declares k cs) {s : Slot}
    (hs : s ∈ b.contributing k) : ∃ c, b.contribution k.name s = .ok c := by
  obtain ⟨walked, forced, rfl, hwalked, hforced⟩ := h
  rcases List.mem_append.mp hs with hs | hs
  · obtain ⟨hslot, hexposed⟩ := List.mem_filter.mp hs
    obtain ⟨c, -, hw⟩ := exists_of_mem_left hwalked hslot
    cases hw with
    | shadowed h => simp [shadows_iff.mpr h] at hexposed
    | tokenLabel h => simp [tokenLabel_iff.mpr h] at hexposed
    | emitted _ _ he => exact ⟨c, contribution_eq_ok_iff.mpr he⟩
  · obtain ⟨name, hname, hslot⟩ := List.mem_filterMap.mp hs
    obtain ⟨c, -, s', hs', he⟩ := exists_of_mem_left hforced hname
    rw [hslot, Option.some.injEq] at hs'
    subst hs'
    exact ⟨c, contribution_eq_ok_iff.mpr he⟩

/-- The features of an entity are named by what it carries. -/
theorem Carries.perm_names {s : Schema} {e : Entity} (h : b.Carries s e cs) :
    (e.features.map Feature.name).Perm
      (b.positional.map Property.name ++ cs.filterMap Contribution.name?) := by
  have hlinks :
      e.relations.map Relation.name = (cs.filterMap Contribution.link?).map Link.name := by
    have hrel := h.relations
    generalize cs.filterMap Contribution.link? = links at hrel ⊢
    generalize e.relations = relations at hrel ⊢
    induction hrel with
    | nil => rfl
    | cons hr _ ih => rw [List.map_cons, List.map_cons, hr.name, ih]
  have hnames : e.features.map Feature.name
      = e.relations.map Relation.name ++ e.properties.map Property.name := by
    simp [Entity.features, Function.comp_def, Feature.name]
  rw [hnames, hlinks, h.properties, List.map_append]
  refine List.perm_append_comm_assoc _ _ _ |>.trans ?_
  exact (Contribution.perm_filterMap_name? cs).symm.append_left _

/-! ### All that a kind leads to -/

/-- To have an entity, a kind needs that of another: of its parent or of what one of its
relations is for. -/
inductive Leads (b : Blueprint) (kind : String) : String → Prop
  | parent {p : String} (h : b.grammar.DerivesFrom kind p) : Leads b kind p
  | relation {k : Kind} {target : String} (known : b.grammar.kind? kind = some k)
      (h : target ∈ b.targets k) : Leads b kind target

/-- Nothing keeps a kind from having an entity, however far one looks. -/
structure Buildable (b : Blueprint) (kind : String) : Prop where
  mappable : b.config.exclusion? kind = none
  sound : ∀ other, Relation.ReflTransGen b.Leads kind other →
    ∃ k, b.grammar.kind? other = some k ∧ b.Sound k

theorem mem_targets_iff {target : String} :
    target ∈ b.targets k ↔
      ∃ slot ∈ b.contributing k, ∃ name m, b.Emits k.name slot (.relation name m target) := by
  constructor
  · intro h
    obtain ⟨c, hc, hct⟩ := List.mem_filterMap.mp h
    obtain ⟨slot, hslot, hsc⟩ := List.mem_filterMap.mp hc
    cases c with
    | nothing => cases hct
    | property p => cases hct
    | relation name m t =>
        cases hct
        exact ⟨slot, hslot, name, m, contribution?_eq_some_iff.mp hsc⟩
  · rintro ⟨slot, hslot, name, m, he⟩
    exact List.mem_filterMap.mpr
      ⟨_, List.mem_filterMap.mpr ⟨slot, hslot, contribution?_eq_some_iff.mpr he⟩, rfl⟩

/-- What relations lead to is not passed over. -/
theorem exclusion?_of_mem_targets {target : String} (h : target ∈ b.targets k) :
    b.config.exclusion? target = none := by
  obtain ⟨slot, -, name, m, he⟩ := mem_targets_iff.mp h
  cases he with
  | child _ elides node kept =>
      exact exclusion?_eq_none_iff.mpr ⟨of_decide_eq_false elides.not_transparent, node, kept⟩

theorem Buildable.exists_sound {kind : String} (h : b.Buildable kind) :
    ∃ k, b.grammar.kind? kind = some k ∧ b.Sound k :=
  h.sound kind .refl

/-- Whatever a kind leads to can have an entity if the kind can. -/
theorem Buildable.of_leads {kind other : String} (h : b.Buildable kind)
    (hleads : b.Leads kind other) : b.Buildable other where
  mappable := by
    cases hleads with
    | parent hp =>
        obtain ⟨k, hk, hsound⟩ := h.exists_sound
        exact hsound.parent other (Grammar.name_of_kind?_eq_some hk ▸ hp)
    | relation _ ht => exact exclusion?_of_mem_targets ht
  sound := fun _ hreach => h.sound _ (.head hleads hreach)

end Blueprint

/-! ### Kinds that have an entity -/

namespace Finished

variable {b : Blueprint} {s : Schema} {kind other : String} {id : EntityId}

/-- The kind of an entity is sound. -/
theorem exists_sound (h : Finished b s) (hid : s.idOf? kind = some id) :
    ∃ k, b.grammar.kind? kind = some k ∧ b.Sound k := by
  obtain ⟨e, he, rfl⟩ := h.consistent.idOf?_eq_some_iff.mp hid
  obtain ⟨k, cs, hk, hdeclares, hcarries⟩ := (h.derived he).features
  have hname : k.name = e.kind := Grammar.name_of_kind?_eq_some hk
  refine ⟨k, hk, ⟨?_, fun slot hslot => hdeclares.exists_contribution hslot, ?_, ?_⟩⟩
  · intro p hp
    obtain ⟨_, -, hpid, -⟩ := h.consistent.exists_parent hid (hname ▸ hp)
    obtain ⟨parent, hparent, rfl⟩ := h.consistent.idOf?_eq_some_iff.mp hpid
    exact Blueprint.exclusion?_eq_none_iff.mpr (h.consistent.mappable hparent)
  · intro name hmem
    obtain ⟨_, forced, -, -, hforced⟩ := hdeclares
    obtain ⟨_, -, slot, hslot, -⟩ := exists_of_mem_left hforced hmem
    exact ⟨slot, hslot⟩
  · have hnodup := hcarries.perm_names.nodup_iff.mp (h.consistent.names he)
    rwa [← hdeclares.filterMap_contributions rfl] at hnodup

/-- Whatever a kind with an entity leads to has one too. -/
theorem exists_of_leads (h : Finished b s) (hid : s.idOf? kind = some id)
    (hleads : b.Leads kind other) : ∃ id', s.idOf? other = some id' := by
  cases hleads with
  | parent hp =>
      obtain ⟨p, -, hpid, -⟩ := h.consistent.exists_parent hid hp
      exact ⟨p, hpid⟩
  | @relation k target known ht =>
      obtain ⟨e, he, rfl⟩ := h.consistent.idOf?_eq_some_iff.mp hid
      obtain ⟨k', cs, hk', hdeclares, hcarries⟩ := (h.derived he).features
      rw [known, Option.some.injEq] at hk'
      subst hk'
      have htargets : b.targets k = (cs.filterMap Contribution.link?).map Link.target :=
        (hdeclares.filterMap_contributions rfl).trans List.map_filterMap.symm
      rw [htargets] at ht
      obtain ⟨l, hl, rfl⟩ := List.mem_map.mp ht
      obtain ⟨r, -, hr⟩ := exists_of_mem_left hcarries.relations hl
      exact ⟨r.target, hr.target⟩

/-- A kind that has an entity could have had one from the start. -/
theorem buildable (h : Finished b s) (hid : s.idOf? kind = some id) : b.Buildable kind where
  mappable := by
    obtain ⟨e, he, rfl⟩ := h.consistent.idOf?_eq_some_iff.mp hid
    exact Blueprint.exclusion?_eq_none_iff.mpr (h.consistent.mappable he)
  sound := by
    intro other hreach
    have hthere : ∃ id', s.idOf? other = some id' := by
      induction hreach with
      | refl => exact ⟨id, hid⟩
      | tail _ hleads ih =>
          obtain ⟨i, hi⟩ := ih
          exact h.exists_of_leads hi hleads
    obtain ⟨id', hid'⟩ := hthere
    exact h.exists_sound hid'

end Finished

end TreeSchema
