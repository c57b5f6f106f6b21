/-
Asking for all kinds at once.

`deriveAll` asks for one kind after the other, in the order in which the grammar defines them and
leaving out those that get no entity of their own, until a request fails.  A request that fails
takes back what it did and nothing else.  So what is there in the end is what the requests before
it made, all of which succeeded.

If none fails then every kind that can have an entity has one.  Whatever is asked later, a kind
keeps its entity, and a kind that has one is found without a derivation.  So there is nothing left
to add, and asking for all kinds again changes nothing.
-/
import TreeSchema.Proofs.Reading
import TreeSchema.Proofs.Upward

namespace TreeSchema

namespace Blueprint

variable {b : Blueprint} {s s₁ s' : Schema} {kind : String} {kinds : List String} {n : Nat}
  {e : Error}

/-- Asking for the kinds of a list one after the other succeeds, and leads from one schema to
another. -/
inductive Obtains (b : Blueprint) : List String → Schema → Schema → Prop
  | nil {s : Schema} : Obtains b [] s s
  | cons {kind : String} {kinds : List String} {id : EntityId} {s s₁ s' : Schema}
      (first : b.entityId kind s = .ok id s₁) (rest : Obtains b kinds s₁ s') :
      Obtains b (kind :: kinds) s s'

/-- The names of the kinds that get an entity of their own, in their order. -/
def mappable (b : Blueprint) (kinds : List Kind) : List String :=
  (kinds.map Kind.name).filter b.isMappable

theorem isMappable_iff :
    b.isMappable kind = true ↔ b.grammar.base ≠ some kind ∧ kind ∉ b.config.transparent ∧
      kind ∉ b.config.flattened ∧ kind ∉ b.config.dropped := by
  simp [isMappable, Grammar.isBase, exclusion?_eq_none_iff]

/-- A place among the kinds that get an entity is a place among all of them. -/
theorem exists_kind_of_mappable {all : List Kind} {done rest : List String}
    (h : b.mappable all = done ++ kind :: rest) :
    ∃ earlier k later, all = earlier ++ k :: later ∧ b.mappable earlier = done ∧ k.name = kind ∧
      b.isMappable kind = true := by
  obtain ⟨l₁, l₂, hl, rfl, h₂⟩ := List.filter_eq_append_iff.mp h
  obtain ⟨l₃, l₄, rfl, hskipped, hkind, -⟩ := List.filter_eq_cons_iff.mp h₂
  obtain ⟨ks₁, ks₂, rfl, rfl, hks₂⟩ := List.map_eq_append_iff.mp hl
  obtain ⟨ks₃, ks₄, rfl, rfl, hks₄⟩ := List.map_eq_append_iff.mp hks₂
  obtain ⟨k, ks₅, rfl, hname, -⟩ := List.map_eq_cons_iff.mp hks₄
  refine ⟨ks₁ ++ ks₃, k, ks₅, by rw [List.append_assoc], ?_, hname, hkind⟩
  have hnone : (ks₃.map Kind.name).filter b.isMappable = [] := List.filter_eq_nil_iff.mpr hskipped
  rw [mappable, List.map_append, List.filter_append, hnone, List.append_nil]

/-! ### A row of requests -/

theorem forM_entityId_eq_ok_iff :
    (kinds.forM fun kind => do let _ ← b.entityId kind) s = .ok ⟨⟩ s' ↔ b.Obtains kinds s s' := by
  induction kinds generalizing s with
  | nil =>
      constructor
      · intro h
        cases h
        exact .nil
      · intro h
        cases h
        rfl
  | cons kind kinds ih =>
      refine Iff.trans run_bind_eq_ok_iff ?_
      constructor
      · intro h
        obtain ⟨_, s₁, hfirst, hrest⟩ := h
        obtain ⟨id, s₂, hid, hdone⟩ := run_bind_eq_ok_iff.mp hfirst
        cases hdone
        exact .cons hid (ih.mp hrest)
      · intro h
        cases h with
        | cons hid hrest =>
            exact ⟨⟨⟩, _, run_bind_eq_ok_iff.mpr ⟨_, _, hid, rfl⟩, ih.mpr hrest⟩

/-- A row of requests fails with the first that fails, and leaves behind what those before made. -/
theorem forM_entityId_eq_error (hs : Finished b s)
    (h : (kinds.forM fun kind => do let _ ← b.entityId kind) s = .error e s') :
    ∃ done kind rest, kinds = done ++ kind :: rest ∧ b.Obtains done s s' ∧
      b.entityId kind s' = .error e s' := by
  induction kinds generalizing s with
  | nil => cases h
  | cons kind kinds ih =>
      rcases run_bind_eq_error_iff.mp h with hfirst | ⟨_, s₁, hfirst, hrest⟩
      · rcases run_bind_eq_error_iff.mp hfirst with hid | ⟨_, _, -, hdone⟩
        · obtain ⟨rfl, -⟩ := (hs.ends_entityId kind).of_error hid
          exact ⟨[], kind, kinds, rfl, .nil, hid⟩
        · cases hdone
      · obtain ⟨id, s₂, hid, hdone⟩ := run_bind_eq_ok_iff.mp hfirst
        cases hdone
        have hs₁ : Finished b s₁ := ((hs.ends_entityId kind).of_ok hid).1
        obtain ⟨done, last, rest, rfl, hobtains, hlast⟩ := ih hs₁ hrest
        exact ⟨kind :: done, last, rest, rfl, .cons hid hobtains, hlast⟩

/-- Kinds that have an entity are found, and nothing changes. -/
theorem obtains_of_there (hs : Finished b s) (h : ∀ kind ∈ kinds, ∃ id, s.idOf? kind = some id) :
    b.Obtains kinds s s := by
  induction kinds with
  | nil => exact .nil
  | cons kind kinds ih =>
      obtain ⟨id, hid⟩ := h kind List.mem_cons_self
      have hrest : ∀ kind ∈ kinds, ∃ id, s.idOf? kind = some id :=
        fun other hother => h other (List.mem_cons_of_mem _ hother)
      exact .cons (hs.entityId_eq_ok hid) (ih hrest)

/-! ### All kinds -/

theorem deriveAll_eq_ok_iff :
    b.deriveAll s = .ok n s' ↔ b.Obtains (b.mappable b.grammar.kinds) s s' ∧ n = s'.size := by
  unfold deriveAll
  rw [run_bind_eq_ok_iff]
  constructor
  · intro h
    obtain ⟨_, s₁, hrow, hsize⟩ := h
    cases hsize
    exact ⟨forM_entityId_eq_ok_iff.mp hrow, rfl⟩
  · intro h
    obtain ⟨hobtains, rfl⟩ := h
    exact ⟨⟨⟩, s', forM_entityId_eq_ok_iff.mpr hobtains, rfl⟩

theorem deriveAll_eq_error (hs : Finished b s) (h : b.deriveAll s = .error e s') :
    ∃ earlier k later, b.grammar.kinds = earlier ++ k :: later ∧ b.isMappable k.name = true ∧
      b.Obtains (b.mappable earlier) s s' ∧ b.entityId k.name s' = .error e s' := by
  rcases run_bind_eq_error_iff.mp h with hrow | ⟨_, _, -, hsize⟩
  · obtain ⟨done, kind, rest, hsplit, hobtains, hkind⟩ := forM_entityId_eq_error hs hrow
    obtain ⟨earlier, k, later, hall, rfl, rfl, hmappable⟩ := exists_kind_of_mappable hsplit
    exact ⟨earlier, k, later, hall, hmappable, hobtains, hkind⟩
  · cases hsize

/-- Once all kinds that can have an entity have one, asking for all kinds changes nothing. -/
theorem deriveAll_eq_ok_of_saturated (h : Saturated b s) :
    b.deriveAll s = .ok s.size s := by
  refine deriveAll_eq_ok_iff.mpr ⟨obtains_of_there h.finished fun kind hkind => ?_, rfl⟩
  obtain ⟨hmem, hmappable⟩ := List.mem_filter.mp hkind
  obtain ⟨k, hk, rfl⟩ := List.mem_map.mp hmem
  exact h.all k hk hmappable

/--
**Asking for all kinds leaves nothing to do.**  Let a mapper be asked anything, and then for all
kinds at once.

If that succeeds then the number it gives is that of the entities, and every kind of the grammar
has its entity, apart from the base and from the kinds that are transparent, flattened or dropped.
Whatever is asked later, asking for such a kind gives the same entity and changes nothing, and
neither does asking for all kinds once more right away.

If it fails then it fails at some kind.  The kinds that the grammar defines before it, as far as
they can have an entity, were asked for with success, and the schema is exactly what these requests
made.
-/
theorem deriveAll_saturates (b : Blueprint) (before : List Call) :
    (∀ n s, b.deriveAll (b.session before).schema = .ok n s →
      n = s.size ∧
      (∀ k ∈ b.grammar.kinds, b.grammar.base ≠ some k.name → k.name ∉ b.config.transparent →
        k.name ∉ b.config.flattened → k.name ∉ b.config.dropped →
        ∃ id, s.idOf? k.name = some id ∧
          ∀ later, b.entityId k.name (b.session (before ++ .deriveAll :: later)).schema =
            .ok id (b.session (before ++ .deriveAll :: later)).schema) ∧
      b.deriveAll s = .ok n s) ∧
      ∀ e s, b.deriveAll (b.session before).schema = .error e s →
        ∃ earlier k later, b.grammar.kinds = earlier ++ k :: later ∧ b.isMappable k.name = true ∧
          b.Obtains (b.mappable earlier) (b.session before).schema s ∧
          b.entityId k.name s = .error e s := by
  have hbefore : Finished b (b.session before).schema := (Session.Holds.session b before).finished
  refine ⟨fun n s h => ?_, fun e s h => deriveAll_eq_error hbefore h⟩
  obtain ⟨hs, -, rfl, hall⟩ := hbefore.ends_deriveAll.of_ok h
  have hsaturated : Saturated b s := ⟨hs, hall⟩
  refine ⟨rfl, fun k hk hbase hplain hnode hkept => ?_, deriveAll_eq_ok_of_saturated hsaturated⟩
  obtain ⟨id, hid⟩ := hall k hk (isMappable_iff.mpr ⟨hbase, hplain, hnode, hkept⟩)
  refine ⟨id, hid, fun later => ?_⟩
  have hasked : (b.session (before ++ [.deriveAll])).schema = s :=
    View.schema_session_concat (View.bind_pure_eq_ok h fun _ => [])
  have hextends := extends_session_append b (before ++ [.deriveAll]) later
  rw [hasked, List.append_assoc, List.singleton_append] at hextends
  exact (Session.Holds.session b _).finished.entityId_eq_ok (hextends.idOf? hid)

/-- The language with calls has four entities.  With a slot too many, asking for all kinds fails at
calls, when blocks and statements are there. -/
example :
    calls.deriveAll .empty = .ok 4 (calls.served [.deriveAll]) ∧
      faultyCalls.deriveAll .empty =
        .error (.noSlot "Call" "missing") (faultyCalls.served [.entityId "Block"]) ∧
      faultyCalls.mappable (faultyCalls.grammar.kinds.take 2) = ["Block", "Stmt"] := by
  decide +kernel

end Blueprint

end TreeSchema
