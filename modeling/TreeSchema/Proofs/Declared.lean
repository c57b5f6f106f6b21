/-
The entity of a kind, said without deriving it.

What the entity of a kind looks like is fixed by grammar and configuration: its slots in
the order in which the kind lists them, then the slots that the configuration asks for by
name, each emitting a property, a relation or nothing.  This module says so slot by slot
(`Emits`, `Walks`, `Forces`), then of a kind (`Declares`), and then of an entity
(`Derives`).  No other entity takes part in it, except that a relation and a parent name
their target by its number, which is read off the schema.

At most one list of contributions is declared by a kind, so two entities that both derive
from it agree, whatever schemas they are in.
-/
import Mathlib.Data.List.Forall2
import TreeSchema.Proofs.Elision

namespace TreeSchema

theorem exists_of_mem_right {α β : Type} {r : α → β → Prop} {l : List α} {l' : List β} {y : β}
    (h : List.Forall₂ r l l') (hy : y ∈ l') : ∃ x ∈ l, r x y := by
  induction h with
  | nil => cases hy
  | @cons a _ _ _ hr _ ih =>
      rcases List.mem_cons.mp hy with rfl | hy
      · exact ⟨a, by simp, hr⟩
      · obtain ⟨x, hx, hr⟩ := ih hy
        exact ⟨x, List.mem_cons_of_mem _ hx, hr⟩

theorem exists_of_mem_left {α β : Type} {r : α → β → Prop} {l : List α} {l' : List β} {x : α}
    (h : List.Forall₂ r l l') (hx : x ∈ l) : ∃ y ∈ l', r x y :=
  exists_of_mem_right (r := flip r) (List.Forall₂.flip h) hx

/-! ### What slots emit -/

/-- A default accessor for nodes that two or more slots of the kind hold. -/
def Kind.Shadowed (k : Kind) (s : Slot) : Prop :=
  s.accessor = .default ∧
    ∃ target, s.item = .node target ∧ 2 ≤ k.slots.countP (·.item = .node target)

/-- A label of a terminal, which has to be asked for. -/
def Slot.IsTokenLabel (s : Slot) : Prop := s.accessor = .label ∧ ∃ symbol, s.item = .terminal symbol

namespace Blueprint

variable {b : Blueprint}

/-- A slot whose values are text: a terminal that is not ignored, or nodes of a kind that
is treated as one. -/
def IsText (b : Blueprint) (s : Slot) : Prop :=
  (∃ symbol, s.item = .terminal symbol ∧ s.name ∉ b.config.ignoredTokens) ∨
    ∃ target effective, s.item = .node target ∧ b.Elides target effective ∧
      effective ∈ b.config.flattened

/-- What a slot of `kind` emits when it is mapped. -/
inductive Emits (b : Blueprint) (kind : String) (s : Slot) : Contribution → Prop
  | ignoredToken {symbol : String} (item : s.item = .terminal symbol)
      (ignored : s.name ∈ b.config.ignoredTokens) : Emits b kind s .nothing
  | text (text : b.IsText s)
      (kept : b.config.featureName kind s.name ∉ (b.config.rule kind).ignored) :
      Emits b kind s
        (.property ⟨b.config.featureName kind s.name, .string, .ofArity s.arity⟩)
  | hidden (text : b.IsText s)
      (hidden : b.config.featureName kind s.name ∈ (b.config.rule kind).ignored) :
      Emits b kind s .nothing
  | dropped {target effective : String} (item : s.item = .node target)
      (elides : b.Elides target effective) (node : effective ∉ b.config.flattened)
      (dropped : effective ∈ b.config.dropped) : Emits b kind s .nothing
  | child {target effective : String} (item : s.item = .node target)
      (elides : b.Elides target effective) (node : effective ∉ b.config.flattened)
      (kept : effective ∉ b.config.dropped) :
      Emits b kind s
        (.relation (b.config.featureName kind s.name) (.ofArity s.arity) effective)

/-- What a slot of a kind emits unasked. -/
inductive Walks (b : Blueprint) (k : Kind) (s : Slot) : Contribution → Prop
  | shadowed (h : k.Shadowed s) : Walks b k s .nothing
  | tokenLabel (h : s.IsTokenLabel) : Walks b k s .nothing
  | emitted {c : Contribution} (plain : ¬ k.Shadowed s) (unlabelled : ¬ s.IsTokenLabel)
      (emits : b.Emits k.name s c) : Walks b k s c

/-- What the first slot of the given name emits, when the configuration asks for it. -/
def Forces (b : Blueprint) (k : Kind) (name : String) (c : Contribution) : Prop :=
  ∃ s, k.slot? name = some s ∧ b.Emits k.name s c

/-- All that a kind contributes to its entity, in order. -/
def Declares (b : Blueprint) (k : Kind) (cs : List Contribution) : Prop :=
  ∃ walked forced, cs = walked ++ forced ∧
    List.Forall₂ (b.Walks k) k.slots walked ∧
    List.Forall₂ (b.Forces k) (b.config.rule k.name).forced forced

end Blueprint

/-! ### What an entity holds -/

/-- A relation whose target is still named by its kind. -/
structure Link where
  name : String
  multiplicity : Multiplicity
  target : String

def Contribution.property? : Contribution → Option Property
  | property p => some p
  | _ => none

def Contribution.link? : Contribution → Option Link
  | relation name m target => some ⟨name, m, target⟩
  | _ => none

namespace Contribution

@[simp] theorem property?_nothing : nothing.property? = none := rfl

@[simp] theorem property?_property (p : Property) : (property p).property? = some p := rfl

@[simp] theorem property?_relation (name : String) (m : Multiplicity) (target : String) :
    (relation name m target).property? = none := rfl

@[simp] theorem link?_nothing : nothing.link? = none := rfl

@[simp] theorem link?_property (p : Property) : (property p).link? = none := rfl

@[simp] theorem link?_relation (name : String) (m : Multiplicity) (target : String) :
    (relation name m target).link? = some ⟨name, m, target⟩ := rfl

theorem property?_eq_some_iff {c : Contribution} {p : Property} :
    c.property? = some p ↔ c = .property p := by
  cases c <;> simp

theorem link?_eq_some_iff {c : Contribution} {l : Link} :
    c.link? = some l ↔ c = .relation l.name l.multiplicity l.target := by
  cases l
  cases c <;> simp

end Contribution

/-- A relation of the entity `source` is the containment that a link describes. -/
structure Schema.Realizes (s : Schema) (source : EntityId) (l : Link) (r : Relation) : Prop where
  name : r.name = l.name
  kind : r.kind = .containment
  multiplicity : r.multiplicity = l.multiplicity
  source : r.source = source
  target : s.idOf? l.target = some r.target

namespace Blueprint

variable {b : Blueprint}

/-- An entity has the source positions if they are asked for, and otherwise exactly the
given contributions. -/
structure Carries (b : Blueprint) (s : Schema) (e : Entity) (cs : List Contribution) :
    Prop where
  properties : e.properties =
    (if b.config.positions then positionalProperties else []) ++
      cs.filterMap Contribution.property?
  relations : List.Forall₂ (s.Realizes e.id) (cs.filterMap Contribution.link?) e.relations

/-- An entity is what grammar and configuration make of its kind. -/
structure Derives (b : Blueprint) (s : Schema) (e : Entity) : Prop where
  name : e.name = b.config.entityName e.kind
  parent : Option.Rel (fun kind id => s.idOf? kind = some id) (b.grammar.parent? e.kind) e.parent
  features : ∃ k cs, b.grammar.kind? e.kind = some k ∧ b.Declares k cs ∧ b.Carries s e cs

/-! ### At most one contribution

A terminal slot emits what its name decides, and a node slot what the kind decides that
its target elides to.  Written as equations, the rules show that a slot emits one thing at
most, and that `contribution` emits just that.
-/

theorem isText_terminal_iff {s : Slot} {symbol : String} (item : s.item = .terminal symbol) :
    b.IsText s ↔ s.name ∉ b.config.ignoredTokens := by
  constructor
  · rintro (⟨_, -, h⟩ | ⟨_, _, hi, -⟩)
    · exact h
    · rw [item] at hi
      cases hi
  · exact fun h => .inl ⟨symbol, item, h⟩

theorem isText_node_iff {s : Slot} {target effective : String} (item : s.item = .node target)
    (elides : b.Elides target effective) : b.IsText s ↔ effective ∈ b.config.flattened := by
  constructor
  · rintro (⟨_, hi, -⟩ | ⟨_, _, hi, he, h⟩)
    · rw [item] at hi
      cases hi
    · rw [item, Item.node.injEq] at hi
      subst hi
      exact elides.unique he ▸ h
  · exact fun h => .inr ⟨target, effective, item, elides, h⟩

theorem emits_textProperty {kind : String} {s : Slot} (h : b.IsText s) :
    b.Emits kind s (b.textProperty kind (b.config.featureName kind s.name) (.ofArity s.arity)) := by
  unfold textProperty Config.admits
  by_cases hk : b.config.featureName kind s.name ∈ (b.config.rule kind).ignored
  · simpa [hk] using Emits.hidden h hk
  · simpa [hk] using Emits.text h hk

theorem Emits.eq_textProperty {kind : String} {s : Slot} {c : Contribution}
    (h : b.Emits kind s c) (ht : b.IsText s) :
    c = b.textProperty kind (b.config.featureName kind s.name) (.ofArity s.arity) := by
  unfold textProperty Config.admits
  cases h with
  | ignoredToken item ignored => exact absurd ignored ((isText_terminal_iff item).mp ht)
  | text _ kept => simp [kept]
  | hidden _ hidden => simp [hidden]
  | dropped item elides node _ => exact absurd ((isText_node_iff item elides).mp ht) node
  | child item elides node _ => exact absurd ((isText_node_iff item elides).mp ht) node

theorem emits_terminal_iff {kind : String} {s : Slot} {symbol : String} {c : Contribution}
    (item : s.item = .terminal symbol) :
    b.Emits kind s c ↔
      c = if s.name ∈ b.config.ignoredTokens then .nothing
        else b.textProperty kind (b.config.featureName kind s.name) (.ofArity s.arity) := by
  by_cases hn : s.name ∈ b.config.ignoredTokens
  · rw [if_pos hn]
    constructor
    · intro h
      have hnot : ¬ b.IsText s := fun ht => (isText_terminal_iff item).mp ht hn
      cases h with
      | ignoredToken => rfl
      | text ht => exact absurd ht hnot
      | hidden => rfl
      | dropped => rfl
      | child item' => rw [item] at item'; cases item'
    · rintro rfl
      exact .ignoredToken item hn
  · rw [if_neg hn]
    have ht : b.IsText s := (isText_terminal_iff item).mpr hn
    constructor
    · exact fun h => h.eq_textProperty ht
    · rintro rfl
      exact emits_textProperty ht

theorem emits_node_iff {kind : String} {s : Slot} {target effective : String}
    {c : Contribution} (item : s.item = .node target) (elides : b.Elides target effective) :
    b.Emits kind s c ↔
      c = if effective ∈ b.config.flattened then
          b.textProperty kind (b.config.featureName kind s.name) (.ofArity s.arity)
        else if effective ∈ b.config.dropped then .nothing
        else .relation (b.config.featureName kind s.name) (.ofArity s.arity) effective := by
  by_cases hf : effective ∈ b.config.flattened
  · rw [if_pos hf]
    have ht : b.IsText s := (isText_node_iff item elides).mpr hf
    constructor
    · exact fun h => h.eq_textProperty ht
    · rintro rfl
      exact emits_textProperty ht
  · rw [if_neg hf]
    have hnot : ¬ b.IsText s := fun ht => hf ((isText_node_iff item elides).mp ht)
    constructor
    · intro h
      cases h with
      | ignoredToken item' => rw [item] at item'; cases item'
      | text ht => exact absurd ht hnot
      | hidden ht => exact absurd ht hnot
      | dropped item' elides' _ hd =>
          rw [item, Item.node.injEq] at item'
          subst item'
          rw [if_pos (elides.unique elides' ▸ hd)]
      | child item' elides' _ hd =>
          rw [item, Item.node.injEq] at item'
          subst item'
          obtain rfl := elides.unique elides'
          rw [if_neg hd]
    · rintro rfl
      split
      · next hd => exact .dropped item elides hf hd
      · next hd => exact .child item elides hf hd

/-- A node slot that emits anything has a target that elides to some kind. -/
theorem Emits.elides {kind : String} {s : Slot} {target : String} {c : Contribution}
    (h : b.Emits kind s c) (item : s.item = .node target) :
    ∃ effective, b.Elides target effective := by
  have htext : b.IsText s → ∃ effective, b.Elides target effective := by
    rintro (⟨_, hi, -⟩ | ⟨_, effective, hi, he, -⟩)
    · rw [item] at hi
      cases hi
    · rw [item, Item.node.injEq] at hi
      exact ⟨effective, hi ▸ he⟩
  cases h with
  | ignoredToken item' => rw [item] at item'; cases item'
  | text ht => exact htext ht
  | hidden ht => exact htext ht
  | dropped item' he => rw [item, Item.node.injEq] at item'; exact ⟨_, item' ▸ he⟩
  | child item' he => rw [item, Item.node.injEq] at item'; exact ⟨_, item' ▸ he⟩

theorem Emits.unique {kind : String} {s : Slot} {c₁ c₂ : Contribution}
    (h₁ : b.Emits kind s c₁) (h₂ : b.Emits kind s c₂) : c₁ = c₂ := by
  cases item : s.item with
  | terminal symbol =>
      exact ((emits_terminal_iff item).mp h₁).trans ((emits_terminal_iff item).mp h₂).symm
  | node target =>
      obtain ⟨effective, he⟩ := h₁.elides item
      exact ((emits_node_iff item he).mp h₁).trans ((emits_node_iff item he).mp h₂).symm

theorem Walks.unique {k : Kind} {s : Slot} {c₁ c₂ : Contribution}
    (h₁ : b.Walks k s c₁) (h₂ : b.Walks k s c₂) : c₁ = c₂ := by
  cases h₁ with
  | shadowed h =>
      cases h₂ with
      | shadowed => rfl
      | tokenLabel => rfl
      | emitted hn => exact absurd h hn
  | tokenLabel h =>
      cases h₂ with
      | shadowed => rfl
      | tokenLabel => rfl
      | emitted _ hn => exact absurd h hn
  | emitted hs hl h =>
      cases h₂ with
      | shadowed h' => exact absurd h' hs
      | tokenLabel h' => exact absurd h' hl
      | emitted _ _ h' => exact h.unique h'

theorem Forces.unique {k : Kind} {name : String} {c₁ c₂ : Contribution}
    (h₁ : b.Forces k name c₁) (h₂ : b.Forces k name c₂) : c₁ = c₂ := by
  obtain ⟨s₁, hs₁, h₁⟩ := h₁
  obtain ⟨s₂, hs₂, h₂⟩ := h₂
  rw [hs₁, Option.some.injEq] at hs₂
  subst hs₂
  exact h₁.unique h₂

/-- A kind declares one list of contributions at most. -/
theorem Declares.unique {k : Kind} {cs₁ cs₂ : List Contribution} (h₁ : b.Declares k cs₁)
    (h₂ : b.Declares k cs₂) : cs₁ = cs₂ := by
  obtain ⟨ws₁, fs₁, rfl, hw₁, hf₁⟩ := h₁
  obtain ⟨ws₂, fs₂, rfl, hw₂, hf₂⟩ := h₂
  rw [List.right_unique_forall₂' (fun _ _ _ h h' => h.unique h') hw₁ hw₂,
    List.right_unique_forall₂' (fun _ _ _ h h' => h.unique h') hf₁ hf₂]

/-! ### What a derivation adds is what is declared -/

theorem emits_of_contribution {kind : String} {s : Slot} {c : Contribution}
    (h : b.contribution kind s = .ok c) : b.Emits kind s c := by
  unfold contribution at h
  cases item : s.item with
  | terminal symbol =>
      rw [item] at h
      refine (emits_terminal_iff item).mpr ?_
      simpa [Config.ignoresToken] using h.symm
  | node target =>
      rw [item] at h
      obtain ⟨effective, he, h⟩ := bind_eq_ok_iff.mp h
      refine (emits_node_iff item (elides_of_effectiveFrom _ _ he)).mpr ?_
      simp only [Config.isFlattened, Config.isDropped] at h
      by_cases hf : effective ∈ b.config.flattened
      · simp_all [pure, Except.pure]
      · by_cases hd : effective ∈ b.config.dropped <;> simp_all [pure, Except.pure]

/-- What a slot contributes is what it emits. -/
theorem contribution_eq_ok_iff {kind : String} {s : Slot} {c : Contribution} :
    b.contribution kind s = .ok c ↔ b.Emits kind s c := by
  refine ⟨emits_of_contribution, fun h => ?_⟩
  unfold contribution
  cases item : s.item with
  | terminal symbol =>
      obtain rfl := (emits_terminal_iff item).mp h
      simp [Config.ignoresToken]
  | node target =>
      obtain ⟨effective, he⟩ := h.elides item
      obtain rfl := (emits_node_iff item he).mp h
      simp only [effectiveKind_eq_ok_iff.mpr he, bind, Except.bind, Config.isFlattened,
        Config.isDropped, decide_eq_true_eq]
      repeat' split
      all_goals rfl

theorem fault_of_contribution {kind : String} {s : Slot} {e : Error}
    (h : b.contribution kind s = .error e) : e.fault = .configuration := by
  unfold contribution at h
  cases item : s.item with
  | terminal symbol => simp [item] at h
  | node target =>
      rw [item] at h
      rcases bind_eq_error_iff.mp h with h | ⟨effective, -, h⟩
      · exact fault_of_effectiveFrom _ _ h
      · repeat' split at h
        all_goals cases h

theorem target?_eq_some_iff {s : Slot} {target : String} :
    s.target? = some target ↔ s.item = .node target := by
  unfold Slot.target?
  cases s.item <;> simp

theorem shadows_iff {k : Kind} {s : Slot} : k.shadows s = true ↔ k.Shadowed s := by
  unfold Kind.shadows Kind.Shadowed Slot.isDefault
  simp only [target?_eq_some_iff]
  cases item : s.item with
  | terminal symbol => simp [Slot.target?, item]
  | node target => simp [Slot.target?, item]

theorem tokenLabel_iff {s : Slot} : (!s.isDefault && s.isTerminal) = true ↔ s.IsTokenLabel := by
  unfold Slot.isDefault Slot.isTerminal Slot.IsTokenLabel
  cases s.accessor <;> cases s.item <;> simp

/-- The slots that are passed over emit nothing, so the others emit all that is walked. -/
theorem exists_walks_of_exposed {k : Kind} {ws : List Contribution}
    (h : List.Forall₂ (b.Emits k.name) k.exposedSlots ws) :
    ∃ walked, List.Forall₂ (b.Walks k) k.slots walked ∧
      walked.filterMap Contribution.property? = ws.filterMap Contribution.property? ∧
      walked.filterMap Contribution.link? = ws.filterMap Contribution.link? := by
  unfold Kind.exposedSlots at h
  -- the kind stays whole, since shadowing looks at all of its slots
  generalize k.slots = slots at h ⊢
  induction slots generalizing ws with
  | nil =>
      cases h
      exact ⟨[], .nil, rfl, rfl⟩
  | cons s slots ih =>
      by_cases hs : k.Shadowed s
      · rw [List.filter_cons_of_neg (by simp [shadows_iff.mpr hs])] at h
        obtain ⟨walked, hw, hp, hl⟩ := ih h
        exact ⟨.nothing :: walked, .cons (.shadowed hs) hw, hp, hl⟩
      · by_cases ht : s.IsTokenLabel
        · rw [List.filter_cons_of_neg (by simp [tokenLabel_iff.mpr ht])] at h
          obtain ⟨walked, hw, hp, hl⟩ := ih h
          exact ⟨.nothing :: walked, .cons (.tokenLabel ht) hw, hp, hl⟩
        · have hexp : (!k.shadows s && !(!s.isDefault && s.isTerminal)) = true := by
            rw [Bool.and_eq_true, Bool.not_eq_true', Bool.not_eq_true', ← Bool.not_eq_true,
              ← Bool.not_eq_true, shadows_iff, tokenLabel_iff]
            exact ⟨hs, ht⟩
          rw [List.filter_cons, if_pos hexp] at h
          cases h with
          | cons hc hrest =>
              obtain ⟨walked, hw, hp, hl⟩ := ih hrest
              exact ⟨_ :: walked, .cons (.emitted hs ht hc) hw, by simp [List.filterMap_cons, hp],
                by simp [List.filterMap_cons, hl]⟩

/-! ### Where a link comes from -/

/-- A slot that emits a relation is one for nodes. -/
theorem Emits.of_relation {kind name effective : String} {s : Slot} {m : Multiplicity}
    (h : b.Emits kind s (.relation name m effective)) :
    name = b.config.featureName kind s.name ∧ m = .ofArity s.arity ∧
      ∃ target, s.item = .node target ∧ b.Elides target effective ∧
        effective ∉ b.config.flattened := by
  cases h with
  | child item elides node _ => exact ⟨rfl, rfl, _, item, elides, node⟩

theorem Emits.of_property {kind : String} {s : Slot} {p : Property}
    (h : b.Emits kind s (.property p)) :
    p.name = b.config.featureName kind s.name ∧ p.multiplicity = .ofArity s.arity := by
  cases h with
  | text => exact ⟨rfl, rfl⟩

/-- What a kind contributes is emitted by one of its slots, if it is anything. -/
theorem Declares.exists_emits {k : Kind} {cs : List Contribution} {c : Contribution}
    (h : b.Declares k cs) (hc : c ∈ cs) (hsome : c ≠ .nothing) :
    ∃ slot ∈ k.slots, b.Emits k.name slot c := by
  obtain ⟨walked, forced, rfl, hwalked, hforced⟩ := h
  rcases List.mem_append.mp hc with hc | hc
  · obtain ⟨slot, hslot, hw⟩ := exists_of_mem_right hwalked hc
    cases hw with
    | shadowed => exact absurd rfl hsome
    | tokenLabel => exact absurd rfl hsome
    | emitted _ _ he => exact ⟨slot, hslot, he⟩
  · obtain ⟨name, -, slot, hslot, he⟩ := exists_of_mem_right hforced hc
    exact ⟨slot, List.mem_of_find?_eq_some hslot, he⟩

/-- A link that a kind declares is emitted by one of its slots. -/
theorem Declares.exists_slot {k : Kind} {cs : List Contribution} {l : Link}
    (h : b.Declares k cs) (hl : l ∈ cs.filterMap Contribution.link?) :
    ∃ slot ∈ k.slots, b.Emits k.name slot (.relation l.name l.multiplicity l.target) := by
  obtain ⟨c, hc, hcl⟩ := List.mem_filterMap.mp hl
  obtain rfl := Contribution.link?_eq_some_iff.mp hcl
  exact h.exists_emits hc nofun

/-- A text that a kind declares is emitted by one of its slots. -/
theorem Declares.exists_text {k : Kind} {cs : List Contribution} {p : Property}
    (h : b.Declares k cs) (hp : p ∈ cs.filterMap Contribution.property?) :
    ∃ slot ∈ k.slots, b.Emits k.name slot (.property p) := by
  obtain ⟨c, hc, hcp⟩ := List.mem_filterMap.mp hp
  obtain rfl := Contribution.property?_eq_some_iff.mp hcp
  exact h.exists_emits hc nofun

/-- A property of an entity is a source position, if those are wanted, or the text of a slot of its
kind. -/
theorem Derives.position_or_slot {s : Schema} {e : Entity} {p : Property} (h : b.Derives s e)
    (hp : p ∈ e.properties) :
    b.config.positions = true ∧ p ∈ positionalProperties ∨
      ∃ k slot, b.grammar.kind? e.kind = some k ∧ slot ∈ k.slots ∧
        b.Emits k.name slot (.property p) := by
  obtain ⟨k, cs, hk, hdeclares, hcarries⟩ := h.features
  rw [hcarries.properties, List.mem_append] at hp
  rcases hp with hp | hp
  · by_cases hpositions : b.config.positions = true
    · rw [if_pos hpositions] at hp
      exact .inl ⟨hpositions, hp⟩
    · simp [if_neg hpositions] at hp
  · obtain ⟨slot, hslot, hemits⟩ := hdeclares.exists_text hp
    exact .inr ⟨k, slot, hk, hslot, hemits⟩

end Blueprint

end TreeSchema
