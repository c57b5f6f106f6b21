/-
Whether a kind can have an entity does not depend on what was asked before.

A derivation of a buildable kind finds the kinds that `discover` finds and gives up where
that does.  It cannot fail in any other way: every slot contributes something, and no name comes
twice, because the names that an entity has at any time are those of what its kind contributed
so far.  As before, this is proved of single steps for an arbitrary way of deriving other
kinds, and closed by induction on the levels.

What succeeds in an empty schema succeeds in any other that requests lead to, since `discover`
does.  What succeeds in some schema has a buildable kind, so that in an empty schema nothing
but depth stands in its way.
-/
import TreeSchema.Proofs.Discovery

namespace TreeSchema

/-! ### Discovering kinds -/

/-- After a run there are the kinds that `outcome` says; if it says nothing, the run fails
because it went too deep. -/
def Discovers {α : Type} (b : Blueprint) (x : Drafting α) (d : Draft)
    (outcome : Option (Finset String)) : Prop :=
  Ends x d (fun _ d' => outcome = some d'.schema.kinds)
    fun e _ => e = .tooDeep b.config.maxDepth ∧ outcome = none

namespace Discovers

variable {α β : Type} {b : Blueprint} {d : Draft} {outcome : Option (Finset String)}

theorem pure (a : α) : Discovers b (pure a) d (some d.schema.kinds) := Ends.pure rfl

/-- One run after another discovers what the two outcomes say one after another; `P` is what
else is known of the first. -/
theorem bind {x : Drafting α} {f : α → Drafting β} {P : α → Draft → Prop}
    {E : Error → Draft → Prop} {next : Finset String → Option (Finset String)}
    (hx : Discovers b x d outcome) (hP : Ends x d P E)
    (hf : ∀ a d', P a d' → Discovers b (f a) d' (next d'.schema.kinds)) :
    Discovers b (x >>= f) d (outcome >>= next) := by
  refine Ends.bind ((hx.and hP).mono (fun _ _ h => h) ?_) fun a d' h => ?_
  · rintro e _ ⟨⟨hdeep, hnone⟩, -⟩
    exact ⟨hdeep, by rw [hnone]; rfl⟩
  · obtain ⟨hsome, hpost⟩ := h
    rw [hsome]
    exact hf a d' hpost

/-- Giving a value back discovers no kinds. -/
theorem bind_pure {x : Drafting α} (hx : Discovers b x d outcome) (v : β) :
    Discovers b (x >>= fun _ => Pure.pure v) d outcome :=
  Ends.bind hx fun _ _ h => Ends.pure h

end Discovers

/-- A way of deriving kinds that, from buildable ones, discovers the kinds that `step` does. -/
def Follows (b : Blueprint) (step : Finset String → String → Option (Finset String))
    (derive : String → Drafting EntityId) : Prop :=
  ∀ (kind : String) (d : Draft), b.Buildable kind → Consistent b d.schema →
    Discovers b (derive kind) d (step d.schema.kinds kind)

/-! ### The slots of a kind -/

section Slots

variable {b : Blueprint} {derive : String → Drafting EntityId}
  {step : Finset String → String → Option (Finset String)} {s : Schema} {id : EntityId}
  {k : Kind} {cs : List Contribution} {c : Contribution} {slot : Slot} {d : Draft}

/-- A feature with a new name is not refused. -/
theorem discovers_amend (h : Underway b s id k cs d.schema) {name : String}
    {change : Entity → Except Error Entity}
    (hchange : ∀ e : Entity, name ∉ e.features.map Feature.name → ∃ e', change e = .ok e')
    (hfresh : name ∉ b.positional.map Property.name ++ cs.filterMap Contribution.name?) :
    Discovers b (Drafting.amend id change) d (some d.schema.kinds) := by
  obtain ⟨e, he, -, -, -, hcs⟩ := h.entity
  refine ends_amend he (fun _ _ => rfl) fun err herr => ?_
  obtain ⟨e', he'⟩ := hchange e fun hmem => hfresh (hcs.perm_names.mem_iff.mp hmem)
  rw [he'] at herr
  cases herr

theorem discovers_contribute (hd : Faithful b derive) (hf : Follows b step derive)
    (h : Underway b s id k cs d.schema) (hc : b.contribution k.name slot = .ok c)
    (hfresh : ∀ name ∈ c.name?,
      name ∉ b.positional.map Property.name ++ cs.filterMap Contribution.name?)
    (hbuildable : ∀ target ∈ c.target?, b.Buildable target) :
    Discovers b (b.contribute derive id k.name slot) d
      (c.target?.toList.foldlM step d.schema.kinds) := by
  unfold Blueprint.contribute
  rw [hc]
  refine Ends.bind_ok ?_
  cases c with
  | nothing => exact Discovers.pure _
  | property p =>
      refine discovers_amend h (fun e hnew => ?_) (hfresh p.name rfl)
      exact ⟨_, Entity.addProperty_eq_ok_iff.mpr ⟨hnew, rfl⟩⟩
  | relation name m target =>
      have hgrows := hd target d h.consistent
      have hfound := hf target d (hbuildable target rfl) h.consistent
      show Discovers b _ d ([target].foldlM step d.schema.kinds)
      rw [List.foldlM_cons]
      refine hfound.bind hgrows fun t d' ht => ?_
      refine discovers_amend (h.grow ht.1) (fun e hnew => ?_) (hfresh name rfl)
      exact ⟨_, Entity.addRelation_eq_ok_iff.mpr ⟨hnew, rfl⟩⟩

/-- Along the slots of a kind, those kinds are discovered that their relations lead to. -/
theorem discovers_walk (hd : Faithful b derive) (hf : Follows b step derive)
    (hid : s.size ≤ id.index) (slots : List Slot) (h : Underway b s id k cs d.schema)
    (hok : ∀ slot ∈ slots, ∃ c, b.contribution k.name slot = .ok c)
    (hnames : (b.positional.map Property.name ++
      (cs ++ slots.filterMap (b.contribution? k)).filterMap Contribution.name?).Nodup)
    (hbuildable : ∀ target ∈ (slots.filterMap (b.contribution? k)).filterMap Contribution.target?,
      b.Buildable target) :
    Discovers b (slots.forM (b.contribute derive id k.name)) d
      (((slots.filterMap (b.contribution? k)).filterMap Contribution.target?).foldlM step
        d.schema.kinds) := by
  induction slots generalizing cs d with
  | nil => exact Discovers.pure _
  | cons slot slots ih =>
      obtain ⟨c, hc⟩ := hok slot List.mem_cons_self
      have hemits := Blueprint.emits_of_contribution hc
      have htargets : ((slot :: slots).filterMap (b.contribution? k)).filterMap
            Contribution.target?
          = c.target?.toList ++
            (slots.filterMap (b.contribution? k)).filterMap Contribution.target? := by
        rw [List.filterMap_cons_some (Blueprint.contribution?_eq_some_iff.mpr hemits),
          List.filterMap_cons]
        cases c.target? <;> rfl
      rw [List.filterMap_cons_some (Blueprint.contribution?_eq_some_iff.mpr hemits)] at hnames
      rw [htargets] at hbuildable ⊢
      have hfresh : ∀ name ∈ c.name?,
          name ∉ b.positional.map Property.name ++ cs.filterMap Contribution.name? := by
        intro name hname hmem
        rw [List.filterMap_append, List.filterMap_cons_some hname, ← List.append_assoc] at hnames
        exact (List.nodup_append.mp hnames).2.2 name hmem name List.mem_cons_self rfl
      rw [List.foldlM_append]
      show Discovers b (b.contribute derive id k.name slot >>= fun _ => slots.forM _) d _
      have hfound := discovers_contribute hd hf h hc hfresh fun target ht =>
        hbuildable target (List.mem_append_left _ (Option.mem_toList.mpr ht))
      refine hfound.bind (ends_contribute hd hid h slot) fun _ d' h' => ?_
      obtain ⟨c', hemits', hnext⟩ := h'
      obtain rfl := hemits.unique hemits'
      refine ih hnext (fun slot hslot => hok slot (List.mem_cons_of_mem _ hslot)) ?_
        fun target ht => hbuildable target (List.mem_append_right _ ht)
      rw [List.append_assoc]
      exact hnames

end Slots

/-! ### One kind, and all that it leads to -/

namespace Blueprint

variable {b : Blueprint} {derive : String → Drafting EntityId}
  {step : Finset String → String → Option (Finset String)} {k : Kind} {kind : String} {d : Draft}

/-- If the slots that are asked for by name are there, all slots are walked alike. -/
theorem deriveNew_eq (hforced : ∀ name ∈ (b.config.rule k.name).forced, ∃ s, k.slot? name = some s)
    (parent : Option EntityId) :
    b.deriveNew derive k parent = (do
      let id ← Drafting.add fun id => b.outline id k.name parent
      (b.contributing k).forM (b.contribute derive id k.name)
      return id) := by
  have hnames : ∀ id, (b.config.rule k.name).forced.forM (b.contributeForced derive id k)
      = ((b.config.rule k.name).forced.filterMap k.slot?).forM (b.contribute derive id k.name) := by
    intro id
    generalize (b.config.rule k.name).forced = names at hforced ⊢
    induction names with
    | nil => rfl
    | cons name names ih =>
        obtain ⟨s, hs⟩ := hforced name List.mem_cons_self
        rw [List.filterMap_cons_some hs]
        show (b.contributeForced derive id k name >>= fun _ => names.forM _)
          = (b.contribute derive id k.name s >>= fun _ => List.forM _ _)
        rw [ih fun other hother => hforced other (List.mem_cons_of_mem _ hother), contributeForced,
          hs]
  have happend : ∀ id, (b.contributing k).forM (b.contribute derive id k.name) = (do
      k.exposedSlots.forM (b.contribute derive id k.name)
      (b.config.rule k.name).forced.forM (b.contributeForced derive id k)) := by
    intro id
    rw [hnames]
    exact List.forM_append
  simp only [deriveNew, happend, bind_assoc]

theorem discovers_deriveNew (hd : Faithful b derive) (hf : Follows b step derive)
    (hk : b.grammar.kind? k.name = some k) (hbuildable : b.Buildable k.name) {s : Schema}
    (hs : Consistent b s) (hfresh : s.idOf? k.name = none) {p : Option EntityId}
    (hp : Option.Rel (fun kind p => s.idOf? kind = some p) (b.grammar.parent? k.name) p)
    (hschema : d.schema = s.markParent p) :
    Discovers b (b.deriveNew derive k p) d ((b.targets k).foldlM step (insert k.name s.kinds)) := by
  obtain ⟨k', hk', hsound⟩ := hbuildable.exists_sound
  rw [hk, Option.some.injEq] at hk'
  subst hk'
  have hstart := underway_outline hk (exclusion?_eq_none_iff.mp hbuildable.mappable) hs hfresh hp
  rw [deriveNew_eq hsound.forced]
  have hadd : Discovers b (Drafting.add fun id => b.outline id k.name p) d
      (some (insert k.name s.kinds)) := by
    refine (ends_add hschema).imp fun _ d' h => ?_
    rw [h.2, Schema.kinds_adopt]
    rfl
  show Discovers b _ d (some (insert k.name s.kinds) >>= (b.targets k).foldlM step)
  refine hadd.bind (ends_add (E := fun _ _ => True) hschema) fun id d₁ h₁ => ?_
  obtain ⟨rfl, h₁⟩ := h₁
  rw [← h₁] at hstart
  have hwalk := discovers_walk hd hf (Nat.le_refl _) (b.contributing k) hstart hsound.slots
    hsound.names fun target ht => hbuildable.of_leads (.relation hk ht)
  exact hwalk.bind_pure _

theorem discovers_deriveParent (hd : Faithful b derive) (hf : Follows b step derive)
    (hbuildable : b.Buildable kind) (hs : Consistent b d.schema) :
    Discovers b (b.deriveParent derive kind) d
      ((b.grammar.parent? kind).toList.foldlM step d.schema.kinds) := by
  unfold deriveParent
  cases hp : b.grammar.parent? kind with
  | none => exact Discovers.pure _
  | some parent =>
      have hleads : b.Leads kind parent := .parent hp
      show Discovers b _ d ([parent].foldlM step d.schema.kinds)
      rw [List.foldlM_cons]
      refine (hf parent d (hbuildable.of_leads hleads) hs).bind (hd parent d hs) fun id d₁ h₁ => ?_
      have hlt : id.index < d₁.schema.size := h₁.1.consistent.index_lt_of_idOf? h₁.2
      refine (ends_markAbstract hlt).bind fun _ d₂ h₂ => Ends.pure ?_
      rw [h₂]
      rfl

theorem discovers_deriveKind (hd : Faithful b derive) (hf : Follows b step derive)
    (hbuildable : b.Buildable kind) (hs : Consistent b d.schema) :
    Discovers b (b.deriveKind derive kind) d (do
      let above ← (b.grammar.parent? kind).toList.foldlM step d.schema.kinds
      if kind ∈ above then some above else (b.targetsOf kind).foldlM step (insert kind above)) := by
  obtain ⟨k, hk, -⟩ := hbuildable.exists_sound
  have hname : k.name = kind := Grammar.name_of_kind?_eq_some hk
  have htargets : b.targetsOf kind = b.targets k := by
    rw [targetsOf, hk]
    rfl
  unfold deriveKind
  rw [Grammar.kind_eq_ok_iff.mpr hk]
  refine Ends.bind_ok ?_
  refine (discovers_deriveParent hd hf hbuildable hs).bind (ends_deriveParent hd kind hs)
    fun p d₁ h₁ => Ends.bind_get ?_
  obtain ⟨s, hgrows, hschema, hp⟩ := h₁
  have hkinds : d₁.schema.kinds = s.kinds := by rw [hschema, Schema.kinds_markParent]
  cases hid : d₁.schema.idOf? kind with
  | some id =>
      rw [if_pos (Schema.mem_kinds_iff.mpr ⟨id, hid⟩)]
      exact Discovers.pure id
  | none =>
      rw [if_neg (Schema.notMem_kinds_iff.mpr hid), htargets, hkinds]
      rw [hschema, Schema.idOf?_markParent] at hid
      subst hname
      exact discovers_deriveNew hd hf hk hbuildable hgrows.consistent hid hp hschema

/-- With any number of levels, a derivation discovers what `discover` does. -/
theorem follows_derive (levels : Nat) : Follows b (b.discover levels) (b.derive levels) := by
  induction levels with
  | zero =>
      intro kind d hbuildable hs
      show Discovers b (b.lookUpOr kind (throw (.tooDeep b.config.maxDepth))) d _
      unfold lookUpOr
      rw [hbuildable.mappable]
      refine Ends.bind_get ?_
      cases hid : d.schema.idOf? kind with
      | some id =>
          rw [discover_of_mem (Schema.mem_kinds_iff.mpr ⟨id, hid⟩)]
          exact Discovers.pure id
      | none => exact Ends.throw ⟨rfl, if_neg (Schema.notMem_kinds_iff.mpr hid)⟩
  | succ levels ih =>
      intro kind d hbuildable hs
      show Discovers b (b.lookUpOr kind (b.deriveKind (b.derive levels) kind)) d _
      unfold lookUpOr
      rw [hbuildable.mappable]
      refine Ends.bind_get ?_
      cases hid : d.schema.idOf? kind with
      | some id =>
          rw [discover_of_mem (Schema.mem_kinds_iff.mpr ⟨id, hid⟩)]
          exact Discovers.pure id
      | none =>
          rw [discover, if_neg (Schema.notMem_kinds_iff.mpr hid)]
          exact discovers_deriveKind (faithful_derive levels) ih hbuildable hs

/-- A request for a buildable kind succeeds unless it goes too deep. -/
theorem ends_entityId_discover (hbuildable : b.Buildable kind) {s : Schema} (hs : Consistent b s) :
    Ends (b.entityId kind) s
      (fun _ s' => b.discover (b.config.maxDepth + 1) s.kinds kind = some s'.kinds)
      fun e _ => e = .tooDeep b.config.maxDepth ∧
        b.discover (b.config.maxDepth + 1) s.kinds kind = none := by
  have h := follows_derive (b.config.maxDepth + 1) kind ⟨s, []⟩ hbuildable hs
  unfold Discovers Ends at h
  unfold Ends entityId
  cases hd : b.derive (b.config.maxDepth + 1) kind ⟨s, []⟩ with
  | ok id d =>
      rw [hd] at h
      exact h
  | error e d =>
      rw [hd] at h
      exact h

end Blueprint

/-! ### Any requests before -/

/-- What the kinds of a schema lead to is in it. -/
theorem Finished.closed_kinds {b : Blueprint} {s : Schema} (h : Finished b s) :
    b.Closed s.kinds := by
  intro kind hkind other hleads
  obtain ⟨id, hid⟩ := Schema.mem_kinds_iff.mp hkind
  exact Schema.mem_kinds_iff.mpr (h.exists_of_leads hid hleads)

/--
**A request does not depend on those before it**, up to the depth.  What succeeds with nothing
asked before succeeds after any requests, and what succeeds after some requests succeeds with
nothing asked before or goes too deep there.
-/
theorem entityId_independent (b : Blueprint) (requests : List Request) (kind : String) :
    (∀ id s, b.entityId kind .empty = .ok id s →
      ∃ id' s', b.entityId kind (b.served requests) = .ok id' s') ∧
    ∀ id s, b.entityId kind (b.served requests) = .ok id s →
      (∃ id' s', b.entityId kind .empty = .ok id' s') ∨
        ∃ s', b.entityId kind .empty = .error (.tooDeep b.config.maxDepth) s' := by
  have hempty := Finished.empty b
  have hserved := b.finished_served requests
  refine ⟨fun id s h => ?_, fun id s h => ?_⟩
  · obtain ⟨hfinished, -, hid⟩ := (hempty.ends_entityId kind).of_ok h
    have hbuildable := hfinished.buildable hid
    have hcold := (b.ends_entityId_discover hbuildable hempty.consistent).of_ok h
    have hwarm := Blueprint.discover_union hserved.closed_kinds hcold
    rw [Schema.kinds_empty, Finset.empty_union] at hwarm
    cases hr : b.entityId kind (b.served requests) with
    | ok id' s' => exact ⟨id', s', rfl⟩
    | error e s' =>
        have hnone := ((b.ends_entityId_discover hbuildable hserved.consistent).of_error hr).2
        rw [hwarm] at hnone
        cases hnone
  · obtain ⟨hfinished, -, hid⟩ := (hserved.ends_entityId kind).of_ok h
    have hbuildable := hfinished.buildable hid
    cases hr : b.entityId kind .empty with
    | ok id' s' => exact .inl ⟨id', s', rfl⟩
    | error e s' =>
        obtain ⟨rfl, -⟩ := (b.ends_entityId_discover hbuildable hempty.consistent).of_error hr
        exact .inr ⟨s', rfl⟩

/-- The language with calls, where no more than two derivations may be inside one another. -/
def shallowCalls : Blueprint where
  grammar := callGrammar
  config := callConfig.withMaxDepth 1
  ignoredTypes := [3]
  known := by decide +kernel

/-- Expressions go too deep, but not once statements are there.  Blocks do not go too deep, so
they never do. -/
theorem entityId_independent_shallow :
    shallowCalls.entityId "Expr" .empty = .error (.tooDeep 1) .empty ∧
      shallowCalls.entityId "Expr" (shallowCalls.served [.entityId "Block"])
        = .ok ⟨2⟩ (shallowCalls.served [.entityId "Block", .entityId "Expr"]) ∧
      ∃ id s,
        shallowCalls.entityId "Block" (shallowCalls.served [.entityId "Expr"]) = .ok id s := by
  have hcold : shallowCalls.entityId "Block" .empty
      = .ok ⟨0⟩ (shallowCalls.served [.entityId "Block"]) := by decide +kernel
  refine ⟨by decide +kernel, by decide +kernel, ?_⟩
  exact (entityId_independent shallowCalls [.entityId "Expr"] "Block").1 _ _ hcold

end TreeSchema
