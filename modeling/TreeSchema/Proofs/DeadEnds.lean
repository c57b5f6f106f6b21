/-
How following transparent kinds ends.

A slot for nodes of a transparent kind counts as one for whatever that kind wraps, which may be
transparent in turn.  The loop that follows them has no bound.  All it has is the list of the kinds
it has seen, and it gives up when it meets one of them again.  `Arrives` is that loop as it is, for
which there need not be any outcome as far as one knows.  There always is one: the kinds in the list
are different kinds of the grammar, so there is only so much room for more.  This also shows that
the bound which `effectiveFrom` counts down is never what ends it.

The outcome depends on the chain of kinds alone.  It is a kind that is not transparent if the chain
comes to one.  Otherwise the chain comes to a transparent kind that wraps no single node, or comes
back to a kind, and then the configuration is at fault.  That the list gives no false alarm is
because whatever is in it leads to the kind that is looked at: meeting it again closes a cycle.
-/
import TreeSchema.Proofs.Elision

namespace TreeSchema.Blueprint

variable {b : Blueprint} {kind target effective : String} {seen : List String} {k : Kind}
  {steps : Nat} {outcome : Except Error String}

/-! ### The loop without a bound -/

/-- From `kind` on, and having seen the kinds in a list, the loop ends with an outcome. -/
inductive Arrives (b : Blueprint) : List String → String → Except Error String → Prop
  | plain {seen : List String} {kind : String} (plain : kind ∉ b.config.transparent) :
      Arrives b seen kind (.ok kind)
  | again {seen : List String} {kind : String} (transparent : kind ∈ b.config.transparent)
      (again : kind ∈ seen) : Arrives b seen kind (.error (.elisionCycle kind))
  | unknown {seen : List String} {kind : String} (transparent : kind ∈ b.config.transparent)
      (new : kind ∉ seen) (unknown : b.grammar.kind? kind = none) :
      Arrives b seen kind (.error (.noKind kind))
  | unfit {seen : List String} {kind : String} {k : Kind} {e : Error}
      (transparent : kind ∈ b.config.transparent) (new : kind ∉ seen)
      (known : b.grammar.kind? kind = some k) (unfit : b.onlyTarget k = .error e) :
      Arrives b seen kind (.error e)
  | on {seen : List String} {kind target : String} {k : Kind} {outcome : Except Error String}
      (transparent : kind ∈ b.config.transparent) (new : kind ∉ seen)
      (known : b.grammar.kind? kind = some k) (only : b.onlyTarget k = .ok target)
      (rest : Arrives b (kind :: seen) target outcome) : Arrives b seen kind outcome

/-- There are steps enough for a kind that was not seen: those seen are different kinds of the
grammar, and with the steps that are left they are more than the grammar has. -/
structure Room (b : Blueprint) (steps : Nat) (seen : List String) : Prop where
  nodup : seen.Nodup
  known : seen ⊆ b.grammar.kinds.map Kind.name
  bound : b.grammar.kinds.length < steps + seen.length

theorem Room.exists_step (h : b.Room steps seen) : ∃ n, steps = n + 1 := by
  have hle : seen.length ≤ b.grammar.kinds.length := by
    simpa using (List.subperm_of_subset h.nodup h.known).length_le
  have hbound := h.bound
  exact Nat.exists_eq_succ_of_ne_zero (by omega)

theorem Room.pass (h : b.Room (steps + 1) seen) (hnew : kind ∉ seen)
    (hk : b.grammar.kind? kind = some k) : b.Room steps (kind :: seen) where
  nodup := List.nodup_cons.mpr ⟨hnew, h.nodup⟩
  known := by
    obtain ⟨hmem, hname⟩ := Grammar.kind?_eq_some_iff.mp hk
    exact List.cons_subset.mpr ⟨List.mem_map.mpr ⟨k, hmem, hname⟩, h.known⟩
  bound := by
    have hbound := h.bound
    rw [List.length_cons]
    omega

/-! ### What the walk does at one kind -/

theorem effectiveFrom_of_plain (hplain : kind ∉ b.config.transparent) :
    b.effectiveFrom steps seen kind = .ok kind := by
  unfold effectiveFrom
  simp [Config.isTransparent, hplain]

theorem effectiveFrom_of_seen (htransparent : kind ∈ b.config.transparent) (hseen : kind ∈ seen) :
    b.effectiveFrom steps seen kind = .error (.elisionCycle kind) := by
  unfold effectiveFrom
  simp [Config.isTransparent, htransparent, hseen]

theorem effectiveFrom_succ (htransparent : kind ∈ b.config.transparent) (hnew : kind ∉ seen) :
    b.effectiveFrom (steps + 1) seen kind =
      b.grammar.kind kind >>= fun k => b.onlyTarget k >>= b.effectiveFrom steps (kind :: seen) := by
  rw [effectiveFrom]
  simp [Config.isTransparent, htransparent, hnew]

theorem effectiveFrom_of_unknown (htransparent : kind ∈ b.config.transparent) (hnew : kind ∉ seen)
    (hk : b.grammar.kind? kind = none) :
    b.effectiveFrom (steps + 1) seen kind = .error (.noKind kind) := by
  rw [effectiveFrom_succ htransparent hnew]
  simp [Grammar.kind, hk, bind, Except.bind]

theorem effectiveFrom_of_known (htransparent : kind ∈ b.config.transparent) (hnew : kind ∉ seen)
    (hk : b.grammar.kind? kind = some k) :
    b.effectiveFrom (steps + 1) seen kind =
      b.onlyTarget k >>= b.effectiveFrom steps (kind :: seen) := by
  rw [effectiveFrom_succ htransparent hnew, Grammar.kind_eq_ok_iff.mpr hk]
  rfl

/-! ### The loop ends -/

/-- Where there is room the loop ends, and with the outcome of the walk. -/
theorem arrives_effectiveFrom (steps : Nat) :
    ∀ {seen : List String} {kind : String}, b.Room steps seen →
      b.Arrives seen kind (b.effectiveFrom steps seen kind) := by
  induction steps with
  | zero =>
      intro seen kind hroom
      obtain ⟨n, hn⟩ := hroom.exists_step
      omega
  | succ steps ih =>
      intro seen kind hroom
      by_cases htransparent : kind ∈ b.config.transparent
      · by_cases hseen : kind ∈ seen
        · rw [effectiveFrom_of_seen htransparent hseen]
          exact .again htransparent hseen
        · cases hk : b.grammar.kind? kind with
          | none =>
              rw [effectiveFrom_of_unknown htransparent hseen hk]
              exact .unknown htransparent hseen hk
          | some k =>
              rw [effectiveFrom_of_known htransparent hseen hk]
              cases honly : b.onlyTarget k with
              | error e => exact .unfit htransparent hseen hk honly
              | ok target => exact .on htransparent hseen hk honly (ih (hroom.pass hseen hk))
      · rw [effectiveFrom_of_plain htransparent]
        exact .plain htransparent

/-- The loop has no other outcome. -/
theorem Arrives.eq_effectiveFrom (h : b.Arrives seen kind outcome) :
    ∀ {steps : Nat}, b.Room steps seen → outcome = b.effectiveFrom steps seen kind := by
  induction h with
  | plain hplain =>
      intro steps _
      exact (effectiveFrom_of_plain hplain).symm
  | again htransparent hseen =>
      intro steps _
      exact (effectiveFrom_of_seen htransparent hseen).symm
  | unknown htransparent hnew hk =>
      intro steps hroom
      obtain ⟨steps, rfl⟩ := hroom.exists_step
      exact (effectiveFrom_of_unknown htransparent hnew hk).symm
  | unfit htransparent hnew hk honly =>
      intro steps hroom
      obtain ⟨steps, rfl⟩ := hroom.exists_step
      rw [effectiveFrom_of_known htransparent hnew hk, honly]
      rfl
  | on htransparent hnew hk honly _ ih =>
      intro steps hroom
      obtain ⟨steps, rfl⟩ := hroom.exists_step
      rw [effectiveFrom_of_known htransparent hnew hk, honly]
      exact ih (hroom.pass hnew hk)

theorem arrives_iff : b.Arrives [] kind outcome ↔ outcome = b.effectiveKind kind := by
  have hroom : b.Room (b.grammar.kinds.length + 1) [] := ⟨List.nodup_nil, by simp, by simp⟩
  constructor
  · intro h
    exact h.eq_effectiveFrom hroom
  · intro h
    rw [h]
    exact arrives_effectiveFrom _ hroom

/-! ### The chain of kinds -/

/-- The slots of a kind that are not ignored tokens are one slot, for one node of the kind
`target`. -/
def Wraps (b : Blueprint) (k : Kind) (target : String) : Prop :=
  ∃ s, k.slots.filter b.isEligible = [s] ∧ s.arity = .single ∧ s.item = .node target

/-- A transparent kind gives way to the kind that it wraps. -/
def Unwraps (b : Blueprint) (kind target : String) : Prop :=
  kind ∈ b.config.transparent ∧ ∃ k, b.grammar.kind? kind = some k ∧ b.Wraps k target

/-- Why a chain of transparent kinds leads nowhere, to be said when it comes to `kind`. -/
inductive Obstructs (b : Blueprint) (kind : String) : Error → Prop
  | unknown (transparent : kind ∈ b.config.transparent) (unknown : b.grammar.kind? kind = none) :
      Obstructs b kind (.noKind kind)
  | terminal {k : Kind} {s : Slot} {symbol : String} (transparent : kind ∈ b.config.transparent)
      (known : b.grammar.kind? kind = some k) (only : k.slots.filter b.isEligible = [s])
      (single : s.arity = .single) (item : s.item = .terminal symbol) :
      Obstructs b kind (.onlyTerminal kind)
  | several {k : Kind} (transparent : kind ∈ b.config.transparent)
      (known : b.grammar.kind? kind = some k)
      (several : ∀ s, k.slots.filter b.isEligible = [s] → s.arity = .multi) :
      Obstructs b kind (.notOneNode kind)
  | cycle (back : Relation.TransGen b.Unwraps kind kind) : Obstructs b kind (.elisionCycle kind)

theorem passes_eq_unwraps : b.Passes = b.Unwraps := by
  funext kind target
  simp only [Passes, Unwraps, Wraps, Config.isTransparent, decide_eq_true_eq, onlyTarget_eq_ok_iff]

theorem Obstructs.fault {e : Error} (h : b.Obstructs kind e) : e.fault = .configuration := by
  cases h <;> rfl

theorem obstructs_of_onlyTarget {e : Error} (htransparent : kind ∈ b.config.transparent)
    (hk : b.grammar.kind? kind = some k) (h : b.onlyTarget k = .error e) : b.Obstructs kind e := by
  obtain rfl := Grammar.name_of_kind?_eq_some hk
  unfold onlyTarget at h
  split at h
  · next s honly =>
    by_cases hsingle : s.arity = .single
    · cases hitem : s.item with
      | terminal symbol =>
          simp only [Slot.isSingle, hsingle, Slot.target?, hitem] at h
          cases h
          exact .terminal htransparent hk honly hsingle hitem
      | node target => simp [Slot.isSingle, hsingle, Slot.target?, hitem] at h
    · simp only [Slot.isSingle, hsingle] at h
      cases h
      refine .several htransparent hk fun s' hs' => ?_
      obtain rfl : s = s' := by simpa using honly.symm.trans hs'
      cases harity : s.arity with
      | single => exact absurd harity hsingle
      | multi => rfl
  · next hmany =>
    cases h
    exact .several htransparent hk fun s hs => absurd hs (hmany s)

/-- The chain from a kind accounts for an outcome: it comes to the kind that is given, or to one
that the error is about. -/
structure Explains (b : Blueprint) (kind : String) (outcome : Except Error String) : Prop where
  ok : ∀ effective, outcome = .ok effective →
    Relation.ReflTransGen b.Unwraps kind effective ∧ effective ∉ b.config.transparent
  error : ∀ e, outcome = .error e →
    ∃ x, Relation.ReflTransGen b.Unwraps kind x ∧ b.Obstructs x e

theorem explains_of_plain (h : kind ∉ b.config.transparent) : b.Explains kind (.ok kind) where
  ok effective heq := by
    cases heq
    exact ⟨.refl, h⟩
  error := nofun

theorem Obstructs.explains {e : Error} (h : b.Obstructs kind e) : b.Explains kind (.error e) where
  ok := nofun
  error e' heq := by
    cases heq
    exact ⟨kind, .refl, h⟩

theorem Explains.head (h : b.Explains target outcome) (hstep : b.Unwraps kind target) :
    b.Explains kind outcome where
  ok effective heq := by
    obtain ⟨hpath, hplain⟩ := h.ok effective heq
    exact ⟨.head hstep hpath, hplain⟩
  error e heq := by
    obtain ⟨x, hpath, hx⟩ := h.error e heq
    exact ⟨x, .head hstep hpath, hx⟩

/-- What the kinds seen lead to is the kind that is looked at, so the outcome is that of the
chain. -/
theorem Arrives.explains (h : b.Arrives seen kind outcome) :
    (∀ x ∈ seen, Relation.TransGen b.Unwraps x kind) → b.Explains kind outcome := by
  induction h with
  | plain hplain =>
      intro _
      exact explains_of_plain hplain
  | again _ hagain =>
      intro hseen
      exact (Obstructs.cycle (hseen _ hagain)).explains
  | unknown htransparent _ hk =>
      intro _
      exact (Obstructs.unknown htransparent hk).explains
  | unfit htransparent _ hk honly =>
      intro _
      exact (obstructs_of_onlyTarget htransparent hk honly).explains
  | @on seen kind target k outcome htransparent _ hk honly _ ih =>
      intro hseen
      have hstep : b.Unwraps kind target := ⟨htransparent, k, hk, onlyTarget_eq_ok_iff.mp honly⟩
      have hseen' : ∀ x ∈ kind :: seen, Relation.TransGen b.Unwraps x target := by
        intro x hx
        rcases List.mem_cons.mp hx with rfl | hx
        · exact .single hstep
        · exact (hseen x hx).tail hstep
      exact (ih hseen').head hstep

/-! ### The outcome is that of the chain -/

/-- A kind elides to the end of the chain, if it ends at a kind that is not transparent. -/
theorem elides_iff : b.Elides kind effective ↔
    Relation.ReflTransGen b.Unwraps kind effective ∧ effective ∉ b.config.transparent := by
  constructor
  · intro h
    refine ⟨?_, of_decide_eq_false h.not_transparent⟩
    induction h with
    | here => exact .refl
    | through htransparent hk honly hsingle hitem _ ih =>
        exact .head ⟨of_decide_eq_true htransparent, _, hk, _, honly, hsingle, hitem⟩ ih
  · intro h
    obtain ⟨hpath, hplain⟩ := h
    induction hpath using Relation.ReflTransGen.head_induction_on with
    | refl => exact .here (decide_eq_false hplain)
    | head hstep _ ih =>
        obtain ⟨htransparent, k, hk, s, honly, hsingle, hitem⟩ := hstep
        exact .through (decide_eq_true htransparent) hk honly hsingle hitem ih

/-- Kinds further on in the chain elide to the same. -/
theorem Elides.of_chain (h : b.Elides kind effective)
    (hpath : Relation.ReflTransGen b.Unwraps kind target) : b.Elides target effective := by
  induction hpath with
  | refl => exact h
  | @tail x y _ hstep ih =>
      obtain ⟨hrest, hplain⟩ := elides_iff.mp ih
      rcases hrest.cases_head with rfl | ⟨z, hstep', hrest⟩
      · exact absurd hstep.1 hplain
      · rw [← passes_eq_unwraps] at hstep hstep'
        obtain rfl := hstep.unique hstep'
        exact elides_iff.mpr ⟨hrest, hplain⟩

theorem Elides.exists_unwraps (h : b.Elides kind effective)
    (htransparent : kind ∈ b.config.transparent) : ∃ target, b.Unwraps kind target := by
  obtain ⟨hpath, hplain⟩ := elides_iff.mp h
  rcases hpath.cases_head with rfl | ⟨target, hstep, -⟩
  · exact absurd htransparent hplain
  · exact ⟨target, hstep⟩

/-- A kind at which a chain leads nowhere elides to none. -/
theorem Obstructs.not_elides {e : Error} (h : b.Obstructs kind e) : ¬ b.Elides kind effective := by
  intro helides
  cases h with
  | cycle hback => exact helides.acyclic (by rwa [passes_eq_unwraps])
  | unknown htransparent hunknown =>
      obtain ⟨_, -, k, hk, -⟩ := helides.exists_unwraps htransparent
      simp [hunknown] at hk
  | terminal htransparent hk honly _ hitem =>
      obtain ⟨_, -, k', hk', s', honly', -, hitem'⟩ := helides.exists_unwraps htransparent
      obtain rfl := Option.some.inj (hk.symm.trans hk')
      obtain rfl := List.singleton_inj.mp (honly.symm.trans honly')
      simp [hitem] at hitem'
  | several htransparent hk hseveral =>
      obtain ⟨_, -, k', hk', s', honly', hsingle', -⟩ := helides.exists_unwraps htransparent
      obtain rfl := Option.some.inj (hk.symm.trans hk')
      simp [hseveral s' honly'] at hsingle'

/--
**Following transparent kinds ends, and with what the chain decides.**  However the transparent
kinds of a grammar refer to each other, the loop that follows them has exactly one outcome.  It is a
kind exactly if going from transparent kinds to what they wrap comes to that kind and it is not
transparent.  It is an error, and then the configuration is at fault, exactly if the chain comes to
a transparent kind that the grammar does not have, to one whose slots, ignored tokens apart, are not
a single one for one node, or to one that it comes back to.  The error names such a kind.
-/
theorem effectiveKind_exact (b : Blueprint) (kind : String) :
    (∀ outcome, b.Arrives [] kind outcome ↔ outcome = b.effectiveKind kind) ∧
      (∀ effective, b.effectiveKind kind = .ok effective ↔
        Relation.ReflTransGen b.Unwraps kind effective ∧ effective ∉ b.config.transparent) ∧
      ((∃ e, b.effectiveKind kind = .error e ∧ e.fault = .configuration) ↔
        ∃ x e, Relation.ReflTransGen b.Unwraps kind x ∧ b.Obstructs x e) ∧
      ∀ e, b.effectiveKind kind = .error e →
        ∃ x, Relation.ReflTransGen b.Unwraps kind x ∧ b.Obstructs x e := by
  have herror : ∀ e, b.effectiveKind kind = .error e →
      ∃ x, Relation.ReflTransGen b.Unwraps kind x ∧ b.Obstructs x e := by
    intro e he
    have harrives : b.Arrives [] kind (.error e) := arrives_iff.mpr he.symm
    exact (harrives.explains (by simp)).error e rfl
  refine ⟨fun _ => arrives_iff, fun _ => effectiveKind_eq_ok_iff.trans elides_iff, ?_, herror⟩
  constructor
  · intro h
    obtain ⟨e, he, -⟩ := h
    obtain ⟨x, hpath, hx⟩ := herror e he
    exact ⟨x, e, hpath, hx⟩
  · intro h
    obtain ⟨x, e, hpath, hx⟩ := h
    cases heffective : b.effectiveKind kind with
    | error e' =>
        obtain ⟨_, -, hx'⟩ := herror e' heffective
        exact ⟨e', rfl, hx'.fault⟩
    | ok effective =>
        have helides : b.Elides kind effective := effectiveKind_eq_ok_iff.mp heffective
        exact absurd (helides.of_chain hpath) hx.not_elides

/-- Two kinds that wrap each other are a cycle, which a third one gets into, and a fourth wraps a
kind that is not there. -/
example :
    let b : Blueprint :=
      { grammar := .ofParts "wrappers" none
          [⟨"A", none, [.ofItem (.node "B") .single]⟩, ⟨"B", none, [.ofItem (.node "A") .single]⟩,
            ⟨"Outer", none, [.ofItem (.node "A") .single]⟩,
            ⟨"Wrap", none, [.ofItem (.node "Leaf") .single]⟩] []
        config := (((Config.standard.markTransparent "A").markTransparent "B").markTransparent
          "Outer").markTransparent "Wrap"
        ignoredTypes := []
        known := by decide +kernel }
    b.effectiveKind "B" = .error (.elisionCycle "B") ∧
      b.effectiveKind "Outer" = .error (.elisionCycle "A") ∧
      b.effectiveKind "Wrap" = .ok "Leaf" := by
  decide +kernel

end TreeSchema.Blueprint
