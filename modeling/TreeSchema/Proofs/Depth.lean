/-
How deep a derivation goes, and for which kinds it succeeds.

A kind that waits for its parent has no entity yet, so the slots of the parent can lead back to
it: one kind may be derived several times inside itself, and the number of kinds does not bound
the depth.  What bounds it is `need`.  With `u` kinds still pending and `c` of them on the way
up from a kind, a derivation of that kind has no more than `c + u.choose 2` others inside one
another below it.  Going up to the parent takes one kind off the way.  Going on to the slots
happens only after an entity was added, and `c` is then at most what `u` has become, so that
`u.choose 2` is enough for all of them.

Where no kind derives from itself and the limit is at least `n * (n + 1) / 2` for `n` kinds, no
request goes too deep.  Then a request succeeds exactly if nothing is wrong with any of the kinds
it leads to.
-/
import Mathlib.Data.Nat.Choose.Basic
import TreeSchema.Proofs.Independence

namespace TreeSchema

/-- A kind is not passed over. -/
def Config.Maps (c : Config) (kind : String) : Prop :=
  kind ∉ c.transparent ∧ kind ∉ c.flattened ∧ kind ∉ c.dropped

/-! ### Kinds without an entity -/

namespace Blueprint

variable {b : Blueprint} {s s' : Schema} {kind parent target : String}

/-- The kinds of the grammar that have no entity. -/
def pending (b : Blueprint) (s : Schema) : Finset String :=
  (b.grammar.kinds.map Kind.name).toFinset \ s.kinds

/-- The pending kinds among a kind and those it derives from. -/
def pendingAbove (b : Blueprint) (s : Schema) (kind : String) : Finset String :=
  (b.pending s).filter fun other => b.grammar.conforms kind other = true

/-- More levels than this are enough to derive a kind. -/
def need (b : Blueprint) (s : Schema) (kind : String) : Nat :=
  (b.pendingAbove s kind).card + (b.pending s).card.choose 2

theorem mem_pending_iff :
    kind ∈ b.pending s ↔ (∃ k, b.grammar.kind? kind = some k) ∧ s.idOf? kind = none := by
  rw [pending, Finset.mem_sdiff, List.mem_toFinset, List.mem_map, Schema.notMem_kinds_iff]
  simp only [Grammar.kind?_eq_some_iff]

theorem mem_pendingAbove_iff {other : String} :
    other ∈ b.pendingAbove s kind ↔
      other ∈ b.pending s ∧ Relation.ReflTransGen b.grammar.DerivesFrom kind other := by
  rw [pendingAbove, Finset.mem_filter, Grammar.conforms_iff]

/-- A schema that has more leaves fewer kinds pending. -/
theorem pending_subset (h : s.Extends s') : b.pending s' ⊆ b.pending s := by
  intro kind hkind
  obtain ⟨hknown, hnone⟩ := mem_pending_iff.mp hkind
  refine mem_pending_iff.mpr ⟨hknown, ?_⟩
  cases hid : s.idOf? kind with
  | none => rfl
  | some id =>
      rw [h.idOf? hid] at hnone
      cases hnone

theorem card_pending_le : (b.pending s).card ≤ b.grammar.kinds.length :=
  (Finset.card_le_card Finset.sdiff_subset).trans
    ((List.toFinset_card_le _).trans_eq (List.length_map _))

/-- What is pending bounds what any kind needs. -/
theorem need_le : b.need s kind ≤ ((b.pending s).card + 1).choose 2 := by
  have habove : (b.pendingAbove s kind).card ≤ (b.pending s).card := Finset.card_filter_le _ _
  rw [need, Nat.choose_succ_succ' _ 1, Nat.choose_one_right]
  exact Nat.add_le_add_right habove _

/-- The parent of a pending kind needs less, since the kind is not above its own parent. -/
theorem need_lt_of_derivesFrom (hacyclic : ¬ Relation.TransGen b.grammar.DerivesFrom kind kind)
    (hkind : kind ∈ b.pending s) (hp : b.grammar.DerivesFrom kind parent) :
    b.need s parent < b.need s kind := by
  have hsub : b.pendingAbove s parent ⊂ b.pendingAbove s kind := by
    refine Finset.ssubset_iff_of_subset (fun other hother => ?_) |>.mpr ⟨kind, ?_, fun hmem => ?_⟩
    · obtain ⟨hpending, habove⟩ := mem_pendingAbove_iff.mp hother
      exact mem_pendingAbove_iff.mpr ⟨hpending, .head hp habove⟩
    · exact mem_pendingAbove_iff.mpr ⟨hkind, .refl⟩
    · exact hacyclic (.head' hp (mem_pendingAbove_iff.mp hmem).2)
  exact Nat.add_lt_add_right (Finset.card_lt_card hsub) _

/-- Once fewer kinds are pending, every kind needs less than a pending one needed before. -/
theorem need_lt_of_card_lt (hkind : kind ∈ b.pending s)
    (hcard : (b.pending s').card < (b.pending s).card) : b.need s' target < b.need s kind := by
  have hself : 0 < (b.pendingAbove s kind).card :=
    Finset.card_pos.mpr ⟨kind, mem_pendingAbove_iff.mpr ⟨hkind, .refl⟩⟩
  calc b.need s' target
    _ ≤ ((b.pending s').card + 1).choose 2 := need_le
    _ ≤ (b.pending s).card.choose 2 := Nat.choose_le_choose 2 hcard
    _ < b.need s kind := Nat.lt_add_of_pos_left hself

end Blueprint

/-- A kind whose entity is under way is no longer pending. -/
theorem Underway.card_pending_lt {b : Blueprint} {s s' : Schema} {id : EntityId} {k : Kind}
    {cs : List Contribution} (h : Underway b s id k cs s') (hk : k.name ∈ b.pending s) :
    (b.pending s').card < (b.pending s).card := by
  refine Finset.card_lt_card ?_
  refine Finset.ssubset_iff_of_subset (Blueprint.pending_subset h.extends_) |>.mpr
    ⟨k.name, hk, fun hmem => ?_⟩
  obtain ⟨e, he, hkind, -⟩ := h.entity
  have hid := h.consistent.idOf?_eq_some_iff.mpr ⟨e, he, hkind⟩
  rw [(Blueprint.mem_pending_iff.mp hmem).2] at hid
  cases hid

/-! ### Runs that do not go too deep -/

/-- If a run fails then for another reason than its depth. -/
def Shallow {α : Type} (x : Drafting α) (d : Draft) : Prop :=
  Ends x d (fun _ _ => True) fun e _ => e.fault ≠ .depthLimit

namespace Shallow

variable {α β : Type} {d : Draft}

theorem pure (a : α) : Shallow (pure a) d := Ends.pure trivial

theorem throw {e : Error} (h : e.fault ≠ .depthLimit) : Shallow (throw e : Drafting α) d :=
  Ends.throw h

/-- One run after another; `P` is what else is known of the first. -/
theorem bind {x : Drafting α} {f : α → Drafting β} {P : α → Draft → Prop}
    {E : Error → Draft → Prop} (hx : Shallow x d) (hP : Ends x d P E)
    (hf : ∀ a d', P a d' → Shallow (f a) d') : Shallow (x >>= f) d :=
  Ends.bind ((hx.and hP).mono (fun _ _ h => h.2) fun _ _ h => h.1) hf

/-- Reading an entity is not deep, whether or not it is there. -/
theorem bind_entity {f : Entity → Drafting β} {s : Schema} {id : EntityId}
    (hf : ∀ e, Shallow (f e) d) : Shallow (liftExcept (s.entity id) >>= f) d := by
  refine Ends.bind_lift (fun e _ => hf e) fun err herr => ?_
  unfold Schema.entity at herr
  split at herr <;> cases herr
  exact nofun

theorem markAbstract (id : EntityId) : Shallow (Drafting.markAbstract id) d :=
  Ends.bind_get (bind_entity fun _ => Ends.set trivial)

theorem amend {id : EntityId} {change : Entity → Except Error Entity}
    (hchange : ∀ e err, change e = .error err → err.fault = .configuration) :
    Shallow (Drafting.amend id change) d := by
  refine Ends.bind_get (bind_entity fun e => ?_)
  refine Ends.bind_lift (fun _ _ => Ends.set trivial) fun err herr => ?_
  rw [hchange e err herr]
  exact nofun

end Shallow

/-! ### The slots of a kind -/

section Slots

variable {b : Blueprint} {derive : String → Drafting EntityId} {s : Schema} {id : EntityId}
  {k : Kind} {cs : List Contribution} {d : Draft}

theorem shallow_contribute (hshallow : ∀ target, Shallow (derive target) d) (slot : Slot) :
    Shallow (b.contribute derive id k.name slot) d := by
  refine Ends.bind_lift (fun c _ => ?_) fun err herr => ?_
  · cases c with
    | nothing => exact Shallow.pure _
    | property p => exact Shallow.amend fun _ _ herr => Entity.fault_of_addProperty herr
    | relation name m target =>
        refine Shallow.bind (hshallow target) .any fun t d' _ => ?_
        exact Shallow.amend fun _ _ herr => Entity.fault_of_addRelation herr
  · rw [Blueprint.fault_of_contribution herr]
    exact nofun

theorem shallow_contributeForced (hshallow : ∀ target, Shallow (derive target) d) (name : String) :
    Shallow (b.contributeForced derive id k name) d := by
  unfold Blueprint.contributeForced
  cases k.slot? name with
  | none => exact .throw nofun
  | some slot => exact shallow_contribute hshallow slot

/-- Along a list of slots or names the entity stays under way, and if no step goes too deep then
nor do all of them. -/
theorem ends_fill_shallow {β : Type} {R : β → Contribution → Prop} {step : β → Drafting PUnit}
    (hshallow : ∀ x cs d, Underway b s id k cs d.schema → Shallow (step x) d)
    (hstep : ∀ x cs d, Underway b s id k cs d.schema →
      Ends (step x) d (fun _ d' => ∃ c, R x c ∧ Underway b s id k (cs ++ [c]) d'.schema)
        fun e _ => b.Faults e)
    (l : List β) (h : Underway b s id k cs d.schema) :
    Ends (l.forM step) d (fun _ d' => ∃ cs, Underway b s id k cs d'.schema)
      fun e _ => e.fault ≠ .depthLimit := by
  refine Ends.forM (I := fun _ (d' : Draft) => ∃ cs, Underway b s id k cs d'.schema) ⟨cs, h⟩
    fun done x d' _ hdone => ?_
  obtain ⟨cs', hcs'⟩ := hdone
  refine (Ends.and (hshallow x cs' d' hcs') (hstep x cs' d' hcs')).mono (fun _ _ h' => ?_)
    fun _ _ h' => h'.1
  obtain ⟨-, c, -, hnext⟩ := h'
  exact ⟨_, hnext⟩

end Slots

/-! ### One kind, and all that it leads to -/

namespace Blueprint

variable {b : Blueprint} {derive : String → Drafting EntityId} {k : Kind} {kind : String}
  {d : Draft}

theorem shallow_deriveNew (hd : Faithful b derive)
    (hk : b.grammar.kind? k.name = some k) (hmap : b.config.exclusion? k.name = none) {s : Schema}
    (hs : Consistent b s) (hfresh : s.idOf? k.name = none) {p : Option EntityId}
    (hp : Option.Rel (fun kind p => s.idOf? kind = some p) (b.grammar.parent? k.name) p)
    (hschema : d.schema = s.markParent p)
    (hshallow : ∀ cs (d' : Draft), Underway b s ⟨s.size⟩ k cs d'.schema →
      ∀ target, Shallow (derive target) d') : Shallow (b.deriveNew derive k p) d := by
  have hstart := underway_outline hk (exclusion?_eq_none_iff.mp hmap) hs hfresh hp
  refine (ends_add hschema).bind fun id d₁ h₁ => ?_
  obtain ⟨rfl, h₁⟩ := h₁
  rw [← h₁] at hstart
  have hwalk := ends_fill_shallow
    (fun slot cs d h => shallow_contribute (hshallow cs d h) slot)
    (fun slot cs d h => ends_contribute hd (Nat.le_refl _) h slot) k.exposedSlots hstart
  refine Ends.bind hwalk fun _ d₂ h₂ => ?_
  obtain ⟨cs, hfill⟩ := h₂
  have hforce := ends_fill_shallow
    (fun name cs d h => shallow_contributeForced (hshallow cs d h) name)
    (fun name cs d h => ends_contributeForced hd (Nat.le_refl _) h name)
    (b.config.rule k.name).forced hfill
  exact Ends.bind hforce fun _ _ _ => Shallow.pure _

theorem shallow_deriveParent
    (hshallow : ∀ parent, b.grammar.DerivesFrom kind parent → Shallow (derive parent) d) :
    Shallow (b.deriveParent derive kind) d := by
  unfold deriveParent
  cases hp : b.grammar.parent? kind with
  | none => exact .pure _
  | some parent =>
      refine (hshallow parent hp).bind .any fun id d' _ => ?_
      exact (Shallow.markAbstract id).bind .any fun _ _ _ => .pure _

/-- A pending kind is derived without going too deep if all kinds are that need less. -/
theorem shallow_deriveKind (hacyclic : ∀ kind, ¬ Relation.TransGen b.grammar.DerivesFrom kind kind)
    (hd : Faithful b derive) (hmap : b.config.exclusion? kind = none) (hs : Consistent b d.schema)
    (hfresh : d.schema.idOf? kind = none)
    (hshallow : ∀ other (d' : Draft), Consistent b d'.schema →
      b.need d'.schema other < b.need d.schema kind → Shallow (derive other) d') :
    Shallow (b.deriveKind derive kind) d := by
  refine Ends.bind_lift (fun k hk => ?_) fun err herr => ?_
  · rw [Grammar.kind_eq_ok_iff] at hk
    have hname : k.name = kind := Grammar.name_of_kind?_eq_some hk
    have hpending : kind ∈ b.pending d.schema := mem_pending_iff.mpr ⟨⟨k, hk⟩, hfresh⟩
    have hparent : ∀ parent, b.grammar.DerivesFrom kind parent → Shallow (derive parent) d :=
      fun parent hp =>
        hshallow parent d hs (need_lt_of_derivesFrom (hacyclic kind) hpending hp)
    refine (shallow_deriveParent hparent).bind (ends_deriveParent hd kind hs)
      fun p d₁ h₁ => Ends.bind_get ?_
    obtain ⟨s, hgrows, hschema, hp⟩ := h₁
    cases hid : d₁.schema.idOf? kind with
    | some id => exact Shallow.pure id
    | none =>
        rw [hschema, Schema.idOf?_markParent] at hid
        subst hname
        refine shallow_deriveNew hd hk hmap hgrows.consistent hid hp hschema
          fun cs d' h target => hshallow target d' h.consistent ?_
        refine need_lt_of_card_lt hpending ?_
        calc (b.pending d'.schema).card
          _ < (b.pending s).card := h.card_pending_lt (mem_pending_iff.mpr ⟨⟨k, hk⟩, hid⟩)
          _ ≤ (b.pending d.schema).card := Finset.card_le_card (pending_subset hgrows.extends_)
  · rw [fault_of_kind herr]
    exact nofun

/-- With more levels than a kind needs its derivation does not go too deep. -/
theorem shallow_derive (hacyclic : ∀ kind, ¬ Relation.TransGen b.grammar.DerivesFrom kind kind)
    (levels : Nat) :
    ∀ kind (d : Draft), Consistent b d.schema → b.need d.schema kind < levels →
      Shallow (b.derive levels kind) d := by
  induction levels with
  | zero => exact fun kind d _ hneed => absurd hneed (Nat.not_lt_zero _)
  | succ levels ih =>
      intro kind d hs hneed
      show Shallow (b.lookUpOr kind (b.deriveKind (b.derive levels) kind)) d
      unfold lookUpOr
      cases hx : b.config.exclusion? kind with
      | some why => exact .throw nofun
      | none =>
          refine Ends.bind_get ?_
          cases hid : d.schema.idOf? kind with
          | some id => exact Shallow.pure id
          | none =>
              refine shallow_deriveKind hacyclic (faithful_derive levels) hx hs hid
                fun other d' hs' hless => ih other d' hs' ?_
              omega

/-- With a limit that is high enough for all kinds, no request goes too deep. -/
theorem ends_entityId_shallow
    (hacyclic : ∀ kind, ¬ Relation.TransGen b.grammar.DerivesFrom kind kind)
    (hdepth : b.grammar.kinds.length * (b.grammar.kinds.length + 1) / 2 ≤ b.config.maxDepth)
    {s : Schema} (hs : Consistent b s) (kind : String) :
    Ends (b.entityId kind) s (fun _ _ => True) fun e _ => e.fault ≠ .depthLimit := by
  have hneed : b.need s kind < b.config.maxDepth + 1 := by
    refine Nat.lt_succ_of_le (le_trans ?_ hdepth)
    calc b.need s kind
      _ ≤ ((b.pending s).card + 1).choose 2 := need_le
      _ ≤ (b.grammar.kinds.length + 1).choose 2 :=
          Nat.choose_le_choose 2 (Nat.succ_le_succ card_pending_le)
      _ = b.grammar.kinds.length * (b.grammar.kinds.length + 1) / 2 := by
          rw [Nat.choose_two_right, Nat.add_sub_cancel, Nat.mul_comm]
  have h := shallow_derive hacyclic (b.config.maxDepth + 1) kind ⟨s, []⟩ hs hneed
  unfold Shallow Ends at h
  unfold Ends entityId
  cases hd : b.derive (b.config.maxDepth + 1) kind ⟨s, []⟩ with
  | ok id d => trivial
  | error e d =>
      rw [hd] at h
      exact h

/-! ### Kinds for which it succeeds -/

/-- Nothing is wrong with a kind, said of its slots and their names. -/
structure WellFormed (b : Blueprint) (k : Kind) : Prop where
  parent : ∀ p, b.grammar.DerivesFrom k.name p → b.config.Maps p
  /-- The slots asked for by name are there. -/
  forced : ∀ name ∈ (b.config.rule k.name).forced, ∃ s ∈ k.slots, s.name = name
  /-- The slots for nodes lead to kinds that are not transparent. -/
  elides : ∀ s ∈ b.contributing k, ∀ target, s.item = .node target →
    ∃ effective, b.Elides target effective
  /-- No name is given to two features. -/
  distinct : (b.featureNames k).Nodup

/-- A slot contributes unless it is for nodes that elide to nothing. -/
theorem exists_contribution_iff {s : Slot} :
    (∃ c, b.contribution kind s = .ok c) ↔
      ∀ target, s.item = .node target → ∃ effective, b.Elides target effective := by
  simp only [contribution_eq_ok_iff]
  constructor
  · rintro ⟨c, hemits⟩ target item
    exact hemits.elides item
  · intro h
    cases item : s.item with
    | terminal symbol => exact ⟨_, (emits_terminal_iff item).mpr rfl⟩
    | node target =>
        obtain ⟨effective, he⟩ := h target item
        exact ⟨_, (emits_node_iff item he).mpr rfl⟩

theorem wellFormed_iff_sound : b.WellFormed k ↔ b.Sound k := by
  have hslot : ∀ name, (∃ s ∈ k.slots, s.name = name) ↔ ∃ s, k.slot? name = some s := by
    intro name
    rw [← Option.isSome_iff_exists, Kind.slot?, List.find?_isSome]
    simp
  constructor
  · intro h
    exact
      { parent := fun p hp => exclusion?_eq_none_iff.mpr (h.parent p hp)
        slots := fun s hs => exists_contribution_iff.mpr (h.elides s hs)
        forced := fun name hname => (hslot name).mp (h.forced name hname)
        names := h.distinct }
  · intro h
    exact
      { parent := fun p hp => exclusion?_eq_none_iff.mp (h.parent p hp)
        forced := fun name hname => (hslot name).mpr (h.forced name hname)
        elides := fun s hs => exists_contribution_iff.mp (h.slots s hs)
        distinct := h.names }

theorem buildable_iff :
    b.Buildable kind ↔ b.config.Maps kind ∧
      ∀ other, Relation.ReflTransGen b.Leads kind other →
        ∃ k, b.grammar.kind? other = some k ∧ b.WellFormed k := by
  simp only [wellFormed_iff_sound, Config.Maps, ← exclusion?_eq_none_iff]
  exact ⟨fun h => ⟨h.mappable, h.sound⟩, fun h => ⟨h.1, h.2⟩⟩

end Blueprint

/--
**Exactly the well-formed kinds have entities.**  Where no kind derives from itself and the limit
is no lower than the sum of the numbers up to that of kinds, no request goes too deep, whatever
was asked before.  It succeeds if and only if the kind is not passed over and all kinds that it
leads to are well formed: its parent and the targets of its relations, with all that these lead
to in turn.
-/
theorem entityId_succeeds_iff (b : Blueprint)
    (hacyclic : ∀ kind, ¬ Relation.TransGen b.grammar.DerivesFrom kind kind)
    (hdepth : b.grammar.kinds.length * (b.grammar.kinds.length + 1) / 2 ≤ b.config.maxDepth)
    (requests : List Request) (kind : String) :
    (∀ e s, b.entityId kind (b.served requests) = .error e s → e.fault ≠ .depthLimit) ∧
      ((∃ id s, b.entityId kind (b.served requests) = .ok id s) ↔
        b.config.Maps kind ∧
          ∀ other, Relation.ReflTransGen b.Leads kind other →
            ∃ k, b.grammar.kind? other = some k ∧ b.WellFormed k) := by
  have hfinished := b.finished_served requests
  have hshallow := b.ends_entityId_shallow hacyclic hdepth hfinished.consistent kind
  refine ⟨fun e s h => hshallow.of_error h, ?_⟩
  rw [← Blueprint.buildable_iff]
  constructor
  · rintro ⟨id, s, h⟩
    obtain ⟨hfinished', -, hid⟩ := (hfinished.ends_entityId kind).of_ok h
    exact hfinished'.buildable hid
  · intro hbuildable
    cases hr : b.entityId kind (b.served requests) with
    | ok id s => exact ⟨id, s, rfl⟩
    | error e s =>
        -- only the depth keeps a buildable kind from its entity
        obtain ⟨rfl, -⟩ :=
          (b.ends_entityId_discover hbuildable hfinished.consistent).of_error hr
        exact absurd rfl (hshallow.of_error hr)

/-- Expressions have an entity, so all that they lead to is well formed. -/
theorem entityId_succeeds_iff_calls :
    (∀ kind, ¬ Relation.TransGen calls.grammar.DerivesFrom kind kind) ∧
      calls.grammar.kinds.length * (calls.grammar.kinds.length + 1) / 2 ≤ calls.config.maxDepth ∧
      calls.entityId "Expr" (calls.served [.entityId "Block"])
        = .ok ⟨2⟩ (calls.served [.entityId "Block", .entityId "Expr"]) ∧
      ∀ other, Relation.ReflTransGen calls.Leads "Expr" other →
        ∃ k, calls.grammar.kind? other = some k ∧ calls.WellFormed k := by
  have hacyclic :=
    Grammar.acyclic_of_above?_eq_none (g := calls.grammar) (n := 2) (by decide +kernel)
  have hdepth : calls.grammar.kinds.length * (calls.grammar.kinds.length + 1) / 2
      ≤ calls.config.maxDepth := by decide +kernel
  have hok : calls.entityId "Expr" (calls.served [.entityId "Block"])
      = .ok ⟨2⟩ (calls.served [.entityId "Block", .entityId "Expr"]) := by decide +kernel
  have hiff := (entityId_succeeds_iff calls hacyclic hdepth [.entityId "Block"] "Expr").2
  exact ⟨hacyclic, hdepth, hok, (hiff.mp ⟨_, _, hok⟩).2⟩

end TreeSchema
