/-
Renaming there and back.

A slot becomes a feature under the name that the rule of its kind gives it.  When a node is read,
the slot is searched for the other way round: each kind on the way up turns the name of the
feature back with its own rule, and the first that has such a slot decides.  The two ways are not
inverse to each other by themselves.  A rule can give two slots one name, or give a slot the name
of another, and a kind on the way can claim a name that is not its own.

What keeps them together is that the names of an entity are distinct.  If a rule renames only
slots that became features, then two slots with one name would be two features with one name, so
a name is turned back to the slot that it came from (`KindRule.slotName_eq`).  And a kind below
the one that a feature comes from cannot turn its name back to another slot, for then its entity
would have a feature of that name and hide the one above.
-/
import TreeSchema.Proofs.Accessors
import TreeSchema.Proofs.Soundness

namespace TreeSchema

/-- Where what is kept of a list has no duplicates, no two entries give the same. -/
theorem eq_of_nodup_filterMap {α β : Type} {g : α → Option β} {l : List α} {a a' : α} {n : β}
    (h : (l.filterMap g).Nodup) (ha : a ∈ l) (ha' : a' ∈ l) (hn : g a = some n)
    (hn' : g a' = some n) : a = a' := by
  induction l with
  | nil => cases ha
  | cons x l ih =>
      have hrest : (l.filterMap g).Nodup := by
        cases hx : g x with
        | none => rwa [List.filterMap_cons_none hx] at h
        | some m =>
            rw [List.filterMap_cons_some hx] at h
            exact h.tail
      have hnew : g x = some n → n ∉ l.filterMap g := by
        intro hx
        rw [List.filterMap_cons_some hx] at h
        exact (List.nodup_cons.mp h).1
      rcases List.mem_cons.mp ha with rfl | hmem
      · rcases List.mem_cons.mp ha' with rfl | hmem'
        · rfl
        · exact absurd (List.mem_filterMap.mpr ⟨a', hmem', hn'⟩) (hnew hn)
      · rcases List.mem_cons.mp ha' with rfl | hmem'
        · exact absurd (List.mem_filterMap.mpr ⟨a, hmem, hn⟩) (hnew hn')
        · exact ih hrest hmem hmem'

/-! ### Rules -/

namespace KindRule

variable {r : KindRule} {raw feature : String}

/-- Where no slot is renamed to a name, it stands for itself. -/
theorem slotName_eq_self (h : ∀ other, (other, feature) ∉ r.renames.entries) :
    r.slotName feature = feature := by
  have hnone : r.renames.entries.find? (·.2 = feature) = none := by
    refine List.find?_eq_none.mpr fun entry hentry => ?_
    simp only [decide_eq_true_eq]
    rintro rfl
    exact h _ hentry
  rw [slotName, hnone]

/-- A name is turned back to the slot it was made for, if no other slot is renamed to it. -/
theorem slotName_eq (hname : r.featureName raw = feature)
    (hunique : ∀ other, (other, feature) ∈ r.renames.entries → other = raw) :
    r.slotName feature = raw := by
  cases hfound : r.renames.entries.find? (·.2 = feature) with
  | some entry =>
      obtain ⟨other, value⟩ := entry
      obtain rfl : value = feature := by simpa using List.find?_some hfound
      rw [slotName, hfound]
      exact hunique other (List.mem_of_find?_eq_some hfound)
  | none =>
      rw [slotName, hfound]
      cases hrename : r.renames.find? raw with
      | none => rw [← hname, featureName, hrename, Option.getD_none]
      | some value =>
          -- the entry that renames the slot would have been found
          rw [featureName, hrename, Option.getD_some] at hname
          subst hname
          simpa using List.find?_eq_none.mp hfound _ (FinMap.find?_eq_some_iff.mp hrename)

end KindRule

/-! ### Slots that become features -/

namespace Blueprint

variable {b : Blueprint} {s : Schema} {k : Kind} {slot slot' : Slot} {f g : Feature}

/-- What a slot of a kind emits is the feature of an entity of that kind. -/
inductive EmitsFeature (b : Blueprint) (s : Schema) (k : Kind) (slot : Slot) : Feature → Prop
  | property {p : Property} (emits : b.Emits k.name slot (.property p)) :
      EmitsFeature b s k slot (.property p)
  | relation {l : Link} {r : Relation} {source : EntityId}
      (emits : b.Emits k.name slot (.relation l.name l.multiplicity l.target))
      (own : s.idOf? k.name = some source) (realizes : s.Realizes source l r) :
      EmitsFeature b s k slot (.relation r)

/-- A slot that a kind contributes with becomes a feature of its entity. -/
structure Becomes (b : Blueprint) (s : Schema) (k : Kind) (slot : Slot) (f : Feature) : Prop where
  contributing : slot ∈ b.contributing k
  emits : b.EmitsFeature s k slot f

/-- What a slot contributes is named as the feature that it becomes. -/
theorem Becomes.exists_contribution (h : b.Becomes s k slot f) :
    ∃ c, b.contribution? k slot = some c ∧ c.name? = some f.name := by
  cases h.emits with
  | property emits => exact ⟨_, contribution?_eq_some_iff.mpr emits, rfl⟩
  | relation emits _ realizes =>
      exact ⟨_, contribution?_eq_some_iff.mpr emits, congrArg some realizes.name.symm⟩

theorem Becomes.name_eq (h : b.Becomes s k slot f) :
    f.name = b.config.featureName k.name slot.name := by
  cases h.emits with
  | property emits => exact emits.of_property.1
  | relation emits _ realizes => exact realizes.name.trans emits.of_relation.1

theorem mem_slots_of_mem_contributing (h : slot ∈ b.contributing k) : slot ∈ k.slots := by
  rcases List.mem_append.mp h with h | h
  · exact (List.mem_filter.mp h).1
  · obtain ⟨_, -, h⟩ := List.mem_filterMap.mp h
    exact List.mem_of_find?_eq_some h

/-- The names of a sound kind are distinct, so two slots do not become features of one name. -/
theorem Sound.slot_unique (h : b.Sound k) (hf : b.Becomes s k slot f) (hg : b.Becomes s k slot' g)
    (hname : f.name = g.name) : slot = slot' := by
  obtain ⟨c, hc, hcname⟩ := hf.exists_contribution
  obtain ⟨c', hc', hcname'⟩ := hg.exists_contribution
  have hnames : ((b.contributions k).filterMap Contribution.name?).Nodup :=
    (List.nodup_append.mp h.names).2.1
  rw [contributions, List.filterMap_filterMap] at hnames
  refine eq_of_nodup_filterMap hnames hf.contributing hg.contributing (n := f.name) ?_ ?_
  · rw [hc, Option.bind_some, hcname]
  · rw [hc', Option.bind_some, hcname', hname]

end Blueprint

/-! ### Features and where they come from -/

/-- The entity of `kind` has a feature from that of `holder`: it is the first on the way up that
has one of the name, and `below` are the kinds before it. -/
structure Blueprint.Contributes (b : Blueprint) (s : Schema) (kind : String) (below : List String)
    (holder : String) (f : Feature) : Prop where
  lineage : ∃ above, b.grammar.lineage kind = below ++ holder :: above
  own : s.own? holder f.name = some f
  first : ∀ k ∈ below, s.own? k f.name = none

namespace Finished

variable {b : Blueprint} {s : Schema} {kind holder : String} {below : List String} {id : EntityId}
  {k : Kind} {slot : Slot} {f : Feature}

/-- Kinds whose entities have a feature of their own have an entity. -/
theorem exists_entity_of_own (h : Finished b s) (hown : s.own? kind f.name = some f) :
    ∃ id e, s.idOf? kind = some id ∧ s.entity? id = some e ∧ e.kind = kind ∧ f ∈ e.features := by
  obtain ⟨id, hid, hentity⟩ := Option.bind_eq_some_iff.mp hown
  obtain ⟨e, he, hfound⟩ := Option.bind_eq_some_iff.mp hentity
  obtain ⟨e', he', hkind⟩ := h.consistent.idOf?_eq_some_iff.mp hid
  rw [he, Option.some.injEq] at he'
  subst he'
  rw [Entity.feature?_eq_find?] at hfound
  exact ⟨id, e, hid, he, hkind, List.mem_of_find?_eq_some hfound⟩

/-- A feature of an entity that is not one of the source positions was a slot of its kind. -/
theorem exists_becomes (h : Finished b s) (hk : b.grammar.kind? kind = some k)
    (hown : s.own? kind f.name = some f) (hpos : f.name ∉ b.positional.map Property.name) :
    ∃ slot, b.Becomes s k slot f := by
  obtain ⟨id, e, hid, he, rfl, hf⟩ := h.exists_entity_of_own hown
  obtain ⟨k', cs, hk', hdeclares, hcarries⟩ := (h.derived he).features
  rw [hk, Option.some.injEq] at hk'
  subst hk'
  have hname : k.name = e.kind := Grammar.name_of_kind?_eq_some hk
  have hslot : ∀ {c}, c ∈ b.contributions k → ∃ slot ∈ b.contributing k, b.Emits k.name slot c := by
    intro c hc
    obtain ⟨slot, hslot, hcs⟩ := List.mem_filterMap.mp hc
    exact ⟨slot, hslot, Blueprint.contribution?_eq_some_iff.mp hcs⟩
  unfold Entity.features at hf
  rcases List.mem_append.mp hf with hf | hf
  · obtain ⟨r, hr, rfl⟩ := List.mem_map.mp hf
    obtain ⟨l, hl, hrealizes⟩ := exists_of_mem_right hcarries.relations hr
    rw [← hdeclares.filterMap_contributions rfl] at hl
    obtain ⟨c, hc, hcl⟩ := List.mem_filterMap.mp hl
    obtain rfl := Contribution.link?_eq_some_iff.mp hcl
    obtain ⟨slot, hmem, hemits⟩ := hslot hc
    rw [h.consistent.numbered he] at hrealizes
    exact ⟨slot, hmem, .relation hemits (hname ▸ hid) hrealizes⟩
  · obtain ⟨p, hp, rfl⟩ := List.mem_map.mp hf
    rw [hcarries.properties, ← hdeclares.filterMap_contributions rfl] at hp
    rcases List.mem_append.mp hp with hp | hp
    · exact absurd (List.mem_map_of_mem hp) hpos
    · obtain ⟨c, hc, hcp⟩ := List.mem_filterMap.mp hp
      obtain rfl := Contribution.property?_eq_some_iff.mp hcp
      obtain ⟨slot, hmem, hemits⟩ := hslot hc
      exact ⟨slot, hmem, .property hemits⟩

/-- A slot that becomes a feature gives its name to one of the entity. -/
theorem own?_ne_none (h : Finished b s) (hid : s.idOf? kind = some id)
    (hk : b.grammar.kind? kind = some k) (hbecomes : b.Becomes s k slot f) :
    s.own? kind f.name ≠ none := by
  obtain ⟨e, he, rfl⟩ := h.consistent.idOf?_eq_some_iff.mp hid
  obtain ⟨k', cs, hk', hdeclares, hcarries⟩ := (h.derived he).features
  rw [hk, Option.some.injEq] at hk'
  subst hk'
  obtain ⟨c, hc, hcname⟩ := hbecomes.exists_contribution
  have hmem : f.name ∈ e.features.map Feature.name := by
    rw [hcarries.perm_names.mem_iff, ← hdeclares.filterMap_contributions rfl]
    refine List.mem_append_right _ (List.mem_filterMap.mpr ⟨c, ?_, hcname⟩)
    exact List.mem_filterMap.mpr ⟨slot, hbecomes.contributing, hc⟩
  obtain ⟨g, hg, hname⟩ := List.mem_map.mp hmem
  rw [Schema.own?, hid, Option.bind_some, he, Option.bind_some, Entity.feature?_eq_find?]
  intro hnone
  simpa [hname] using List.find?_eq_none.mp hnone g hg

end Finished

/-! ### Back to the slot -/

/-- What makes the names of a kind's features lead back to its slots: the slots have names of
their own, and only such are renamed as became features. -/
structure Blueprint.Reversible (b : Blueprint) (s : Schema) (k : Kind) : Prop where
  names : (k.slots.map Slot.name).Nodup
  renamed : ∀ raw feature, (raw, feature) ∈ (b.config.rule k.name).renames.entries →
    ∃ slot f, slot.name = raw ∧ b.Becomes s k slot f

namespace Blueprint

variable {b : Blueprint} {s : Schema} {k : Kind} {slot : Slot} {f : Feature} {raw feature : String}

/-- A slot renamed to some name becomes a feature of that name. -/
theorem Reversible.exists_becomes (h : b.Reversible s k)
    (hmem : (raw, feature) ∈ (b.config.rule k.name).renames.entries) :
    ∃ slot f, slot.name = raw ∧ f.name = feature ∧ b.Becomes s k slot f := by
  obtain ⟨slot, f, rfl, hbecomes⟩ := h.renamed raw feature hmem
  refine ⟨slot, f, rfl, ?_, hbecomes⟩
  rw [hbecomes.name_eq, Config.featureName, KindRule.featureName,
    FinMap.find?_eq_some_iff.mpr hmem, Option.getD_some]

/-- The kind that a feature comes from finds the slot that became it. -/
theorem Reversible.slot?_eq (h : b.Reversible s k) (hsound : b.Sound k)
    (hbecomes : b.Becomes s k slot f) :
    b.config.slotName k.name f.name = slot.name ∧ k.slot? slot.name = some slot := by
  refine ⟨KindRule.slotName_eq hbecomes.name_eq.symm fun other hother => ?_, ?_⟩
  · obtain ⟨slot', f', rfl, hname, hbecomes'⟩ := h.exists_becomes hother
    rw [hsound.slot_unique hbecomes' hbecomes hname]
  · exact Kind.slot?_eq_some_of_mem h.names (mem_slots_of_mem_contributing hbecomes.contributing)

end Blueprint

/-- A kind whose entity has no feature of a name leaves the name as it is: a slot renamed to it
would have become such a feature. -/
theorem Finished.slotName_eq_self {b : Blueprint} {s : Schema} {k : Kind} {id : EntityId}
    {feature : String} (h : Finished b s) (hid : s.idOf? k.name = some id)
    (hk : b.grammar.kind? k.name = some k) (hreversible : b.Reversible s k)
    (hown : s.own? k.name feature = none) : b.config.slotName k.name feature = feature := by
  refine KindRule.slotName_eq_self fun other hother => ?_
  obtain ⟨slot, f, -, rfl, hbecomes⟩ := hreversible.exists_becomes hother
  exact h.own?_ne_none hid hk hbecomes hown

/--
**Renaming goes back to the slot.**  Take a feature of the entity of a kind, other than a source
position, and the kind `holder` that it comes from, whose entity is that of the kind or above it.
On the way up to there all slots shall have names of their own, the rules rename only slots that
became features, and no kind below the holder has a slot of the feature's very name.  Then the
feature was a slot of the holder, and reading the feature finds just that slot, under the name
that the holder gives it.
-/
theorem declaredSlot?_eq_of_becomes (b : Blueprint) (requests : List Request) {kind holder : String}
    {below : List String} {id : EntityId} {s : Schema} {k : Kind} {f : Feature}
    (h : b.entityId kind (b.served requests) = .ok id s)
    (hf : b.Contributes s kind below holder f) (hk : b.grammar.kind? holder = some k)
    (hpos : f.name ∉ b.positional.map Property.name)
    (hreversible : ∀ between ∈ below ++ [holder], ∀ j, b.grammar.kind? between = some j →
      b.Reversible s j)
    (hbelow : ∀ between ∈ below, ∀ j, b.grammar.kind? between = some j →
      f.name ∉ j.slots.map Slot.name) :
    (∃ slot, b.Becomes s k slot f) ∧
      ∀ slot, b.Becomes s k slot f → b.declaredSlot? kind f.name = some (slot.name, slot) := by
  obtain ⟨hfinished, -, hid⟩ := ((b.finished_served requests).ends_entityId kind).of_ok h
  refine ⟨hfinished.exists_becomes hk hf.own hpos, fun slot hbecomes => ?_⟩
  obtain ⟨above, hlineage⟩ := hf.lineage
  have hname : k.name = holder := Grammar.name_of_kind?_eq_some hk
  refine List.findSome?_eq_some_iff.mpr ⟨below, holder, above, hlineage, ?_, ?_⟩
  · obtain ⟨holderId, -, hholder, -⟩ := hfinished.exists_entity_of_own hf.own
    obtain ⟨k', hk', hsound⟩ := hfinished.exists_sound hholder
    rw [hk, Option.some.injEq] at hk'
    subst hk'
    have hrev := hreversible holder (by simp) k hk
    obtain ⟨hback, hslot⟩ := hrev.slot?_eq hsound hbecomes
    rw [hname] at hback
    rw [hback, hk]
    show (k.slot? slot.name).map (slot.name, ·) = _
    rw [hslot, Option.map_some]
  · intro between hbetween
    cases hj : b.grammar.kind? between with
    | none => rfl
    | some j =>
        obtain rfl : j.name = between := Grammar.name_of_kind?_eq_some hj
        have hup : Relation.ReflTransGen b.grammar.DerivesFrom kind j.name :=
          Grammar.mem_lineage_iff.mp (hlineage ▸ List.mem_append_left _ hbetween)
        obtain ⟨p, hp, -⟩ := hfinished.consistent.exists_ancestor hid hup
        have hself : b.config.slotName j.name f.name = f.name :=
          hfinished.slotName_eq_self hp hj
            (hreversible j.name (List.mem_append_left _ hbetween) j hj) (hf.first j.name hbetween)
        have hnone : j.slot? f.name = none := by
          refine List.find?_eq_none.mpr fun slot' hslot' => ?_
          simp only [decide_eq_true_eq]
          rintro hsame
          exact hbelow j.name hbetween j hj (hsame ▸ List.mem_map_of_mem hslot')
        rw [hself]
        show (j.slot? f.name).map (f.name, ·) = _
        rw [hnone, Option.map_none]

/-- The language with calls, where a name is called as an argument was, and what ends a statement
has a name of its own. -/
def renamedCalls : Blueprint where
  grammar := callGrammar
  config :=
    ((callConfig.renameSlot "Stmt" "NEWLINE" "end").renameSlot "Call" "NAME" "arg").renameSlot
      "Call" "arg" "args"
  ignoredTypes := [3]
  known := by decide +kernel

/-- The schema once calls were asked for. -/
def renamedSchema : Schema := renamedCalls.served [.entityId "Call"]

def nameSlot : Slot := .ofItem (.terminal "NAME") .single

def argSlot : Slot := .ofItem (.node "Arg") .multi

def newlineSlot : Slot := .ofItem (.terminal "NEWLINE") .single

def callKind : Kind := ⟨"Call", some "Stmt", [nameSlot, argSlot]⟩

def stmtKind : Kind := ⟨"Stmt", some "Node", [newlineSlot]⟩

theorem reversible_renamedCalls_call : renamedCalls.Reversible renamedSchema callKind := by
  have hname : renamedCalls.contribution "Call" nameSlot
      = .ok (.property ⟨"arg", .string, .one⟩) := by decide +kernel
  have harg : renamedCalls.contribution "Call" argSlot
      = .ok (.relation "args" .many "Expr") := by decide +kernel
  have hentries : (renamedCalls.config.rule callKind.name).renames.entries
      = [("NAME", "arg"), ("arg", "args")] := by decide +kernel
  refine ⟨by decide, fun raw feature hmem => ?_⟩
  rw [hentries] at hmem
  rcases List.mem_cons.mp hmem with hmem | hmem
  · cases hmem
    exact ⟨nameSlot, _, by decide, by decide +kernel,
      .property (Blueprint.contribution_eq_ok_iff.mp hname)⟩
  · cases List.mem_singleton.mp hmem
    exact ⟨argSlot, .relation ⟨"args", .containment, .many, ⟨1⟩, ⟨2⟩⟩, by decide, by decide +kernel,
      .relation (l := ⟨"args", .many, "Expr"⟩)
        (Blueprint.contribution_eq_ok_iff.mp harg) (by decide +kernel)
        ⟨rfl, rfl, rfl, rfl, by decide +kernel⟩⟩

theorem reversible_renamedCalls_stmt : renamedCalls.Reversible renamedSchema stmtKind := by
  have hnewline : renamedCalls.contribution "Stmt" newlineSlot
      = .ok (.property ⟨"end", .string, .one⟩) := by decide +kernel
  have hentries : (renamedCalls.config.rule stmtKind.name).renames.entries
      = [("NEWLINE", "end")] := by decide +kernel
  refine ⟨by decide, fun raw feature hmem => ?_⟩
  rw [hentries] at hmem
  cases List.mem_singleton.mp hmem
  exact ⟨newlineSlot, _, by decide, by decide +kernel,
    .property (Blueprint.contribution_eq_ok_iff.mp hnewline)⟩

/-- Calls inherit what ends a statement, and find its slot although their own names are moved. -/
theorem declaredSlot?_eq_of_becomes_call :
    renamedCalls.entityId "Call" (renamedCalls.served []) = .ok ⟨1⟩ renamedSchema ∧
      renamedCalls.Contributes renamedSchema "Call" ["Call"] "Stmt"
        (.property ⟨"end", .string, .one⟩) ∧
      renamedCalls.declaredSlot? "Call" "end" = some ("NEWLINE", newlineSlot) := by
  have hok : renamedCalls.entityId "Call" (renamedCalls.served []) = .ok ⟨1⟩ renamedSchema := by
    decide +kernel
  have hf : renamedCalls.Contributes renamedSchema "Call" ["Call"] "Stmt"
      (.property ⟨"end", .string, .one⟩) :=
    ⟨⟨[], by decide +kernel⟩, by decide +kernel, by decide +kernel⟩
  have hcall : renamedCalls.grammar.kind? "Call" = some callKind := by decide +kernel
  have hstmt : renamedCalls.grammar.kind? "Stmt" = some stmtKind := by decide +kernel
  have hnewline : renamedCalls.contribution "Stmt" newlineSlot
      = .ok (.property ⟨"end", .string, .one⟩) := by decide +kernel
  have hback := (declaredSlot?_eq_of_becomes renamedCalls [] hok hf hstmt (by decide +kernel)
    (fun between hbetween j hj => ?_) fun between hbetween j hj => ?_).2 newlineSlot
      ⟨by decide +kernel, .property (Blueprint.contribution_eq_ok_iff.mp hnewline)⟩
  · exact ⟨hok, hf, hback⟩
  · rcases List.mem_cons.mp hbetween with rfl | hbetween
    · rw [hcall, Option.some.injEq] at hj
      exact hj ▸ reversible_renamedCalls_call
    · cases List.mem_singleton.mp hbetween
      rw [hstmt, Option.some.injEq] at hj
      exact hj ▸ reversible_renamedCalls_stmt
  · cases List.mem_singleton.mp hbetween
    rw [hcall, Option.some.injEq] at hj
    subst hj
    decide

end TreeSchema
