/-
Transparent kinds, said without a walk.

A slot for nodes of a transparent kind counts as a slot for whatever that kind wraps.
`Elides` says which kind that is: follow the only slot that counts, from transparent kind
to transparent kind, to the first that is not.  There is no list of kinds seen and no
bound in it, and at most one kind is reached from any.  The walk of `effectiveKind` finds
just that, and when it fails the configuration is at fault.

That the walk does not give up too early is the one thing to be said about its bound and its
list.  A kind that elides to another does not come back to itself, so the kinds passed on the
way are all different, and there are no more of them than the grammar has.
-/
import Mathlib.Data.List.Perm.Subperm
import TreeSchema.Blueprint.Basic
import TreeSchema.Proofs.Lineage
import TreeSchema.Proofs.Outcome

namespace TreeSchema

namespace Blueprint

variable {b : Blueprint}

/-- `effective` is the first kind from `kind` on that is not transparent. -/
inductive Elides (b : Blueprint) : String → String → Prop
  | here {kind : String} (plain : b.config.isTransparent kind = false) : Elides b kind kind
  | through {kind target effective : String} {k : Kind} {s : Slot}
      (transparent : b.config.isTransparent kind = true)
      (known : b.grammar.kind? kind = some k)
      (only : k.slots.filter b.isEligible = [s])
      (single : s.arity = .single)
      (item : s.item = .node target)
      (rest : Elides b target effective) : Elides b kind effective

theorem Elides.not_transparent {kind effective : String} (h : b.Elides kind effective) :
    b.config.isTransparent effective = false := by
  induction h with
  | here h => exact h
  | through _ _ _ _ _ _ ih => exact ih

/-- Each kind elides to one kind at most. -/
theorem Elides.unique {kind e₁ e₂ : String} (h₁ : b.Elides kind e₁) (h₂ : b.Elides kind e₂) :
    e₁ = e₂ := by
  induction h₁ with
  | here h =>
      cases h₂ with
      | here => rfl
      | through ht => simp [h] at ht
  | through ht hk ho _ hi _ ih =>
      cases h₂ with
      | here h => simp [h] at ht
      | through _ hk' ho' _ hi' hrest =>
          rw [hk, Option.some.injEq] at hk'
          subst hk'
          rw [ho, List.cons.injEq] at ho'
          obtain ⟨rfl, -⟩ := ho'
          rw [hi, Item.node.injEq] at hi'
          subst hi'
          exact ih hrest

/-! ### The walk finds it -/

theorem onlyTarget_eq_ok_iff {k : Kind} {target : String} :
    b.onlyTarget k = .ok target ↔
      ∃ s, k.slots.filter b.isEligible = [s] ∧ s.arity = .single ∧ s.item = .node target := by
  unfold onlyTarget
  split
  · next s hs =>
    by_cases ha : s.arity = .single
    · cases hi : s.item <;> simp [hs, ha, hi, Slot.isSingle, Slot.target?]
    · simp [hs, ha, Slot.isSingle]
  · next hs =>
    constructor
    · simp
    · rintro ⟨s, h, -⟩
      exact absurd h (hs s)

theorem fault_of_onlyTarget {k : Kind} {e : Error} (h : b.onlyTarget k = .error e) :
    e.fault = .configuration := by
  unfold onlyTarget at h
  repeat' split at h
  all_goals cases h
  all_goals rfl

theorem fault_of_kind {kind : String} {e : Error} (h : b.grammar.kind kind = .error e) :
    e.fault = .configuration := by
  unfold Grammar.kind at h
  split at h <;> cases h
  rfl

theorem elides_of_effectiveFrom {kind effective : String} (steps : Nat) :
    ∀ seen, b.effectiveFrom steps seen kind = .ok effective → b.Elides kind effective := by
  induction steps generalizing kind with
  | zero =>
      intro seen h
      unfold effectiveFrom at h
      split at h
      · next ht => cases h; exact .here (by simpa using ht)
      · split at h <;> cases h
  | succ steps ih =>
      intro seen h
      unfold effectiveFrom at h
      split at h
      · next ht => cases h; exact .here (by simpa using ht)
      · next ht =>
        split at h
        · cases h
        · obtain ⟨k, hk, h⟩ := bind_eq_ok_iff.mp h
          obtain ⟨target, htarget, h⟩ := bind_eq_ok_iff.mp h
          obtain ⟨s, honly, hsingle, hitem⟩ := onlyTarget_eq_ok_iff.mp htarget
          exact .through (by simpa using ht) (Grammar.kind_eq_ok_iff.mp hk) honly hsingle hitem
            (ih _ h)

theorem fault_of_effectiveFrom {kind : String} {e : Error} (steps : Nat) :
    ∀ seen, b.effectiveFrom steps seen kind = .error e → e.fault = .configuration := by
  induction steps generalizing kind with
  | zero =>
      intro seen h
      unfold effectiveFrom at h
      split at h
      · cases h
      · split at h
        · cases h; rfl
        · cases h; rfl
  | succ steps ih =>
      intro seen h
      unfold effectiveFrom at h
      split at h
      · cases h
      · split at h
        · cases h; rfl
        · rcases bind_eq_error_iff.mp h with hk | ⟨k, -, h⟩
          · exact fault_of_kind hk
          · rcases bind_eq_error_iff.mp h with ht | ⟨target, -, h⟩
            · exact fault_of_onlyTarget ht
            · exact ih _ h

/-! ### It finds all of it -/

/-- A transparent kind is passed on the way to the kind that its only slot is for. -/
def Passes (b : Blueprint) (kind target : String) : Prop :=
  b.config.isTransparent kind = true ∧
    ∃ k, b.grammar.kind? kind = some k ∧ b.onlyTarget k = .ok target

theorem Passes.unique {kind t₁ t₂ : String} (h₁ : b.Passes kind t₁) (h₂ : b.Passes kind t₂) :
    t₁ = t₂ := by
  obtain ⟨-, k₁, hk₁, ht₁⟩ := h₁
  obtain ⟨-, k₂, hk₂, ht₂⟩ := h₂
  rw [hk₁, Option.some.injEq] at hk₂
  subst hk₂
  rw [ht₁, Except.ok.injEq] at ht₂
  exact ht₂

/-- A kind that elides to another is not passed twice. -/
theorem Elides.acyclic {kind effective : String} (h : b.Elides kind effective) :
    ¬ Relation.TransGen b.Passes kind kind := by
  induction h with
  | here plain =>
      intro hcycle
      obtain ⟨_, hstep, -⟩ := Relation.TransGen.head'_iff.mp hcycle
      rw [hstep.1] at plain
      cases plain
  | @through kind target _ k s transparent known only single item _ ih =>
      intro hcycle
      have hpass : b.Passes kind target :=
        ⟨transparent, k, known, onlyTarget_eq_ok_iff.mpr ⟨s, only, single, item⟩⟩
      obtain ⟨next, hstep, hback⟩ := Relation.TransGen.head'_iff.mp hcycle
      obtain rfl := hpass.unique hstep
      exact ih (Relation.TransGen.tail' hback hpass)

/-- The walk has steps enough: the kinds it has seen are different kinds of the grammar, and
none of them is met again. -/
theorem effectiveFrom_eq_ok {kind effective : String} (h : b.Elides kind effective) :
    ∀ (steps : Nat) (seen : List String), seen.Nodup →
      (∀ x ∈ seen, x ∈ b.grammar.kinds.map Kind.name ∧ Relation.TransGen b.Passes x kind) →
      b.grammar.kinds.length < steps + seen.length →
      b.effectiveFrom steps seen kind = .ok effective := by
  induction h with
  | here plain =>
      intro steps seen _ _ _
      unfold effectiveFrom
      simp [plain]
  | @through kind target effective k s transparent known only single item rest ih =>
      intro steps seen hnodup hseen hbound
      have hpass : b.Passes kind target :=
        ⟨transparent, k, known, onlyTarget_eq_ok_iff.mpr ⟨s, only, single, item⟩⟩
      have hnew : kind ∉ seen := by
        intro hmem
        exact (Elides.through transparent known only single item rest).acyclic (hseen kind hmem).2
      have hlength : seen.length ≤ b.grammar.kinds.length := by
        have hsub : seen ⊆ b.grammar.kinds.map Kind.name := fun x hx => (hseen x hx).1
        simpa using (List.subperm_of_subset hnodup hsub).length_le
      cases steps with
      | zero => omega
      | succ steps =>
          have hrest : b.effectiveFrom steps (kind :: seen) target = .ok effective := by
            refine ih steps (kind :: seen) (List.nodup_cons.mpr ⟨hnew, hnodup⟩) ?_ ?_
            · intro x hx
              rcases List.mem_cons.mp hx with rfl | hx
              · obtain ⟨hmem, hname⟩ := Grammar.kind?_eq_some_iff.mp known
                exact ⟨List.mem_map.mpr ⟨k, hmem, hname⟩, .single hpass⟩
              · exact ⟨(hseen x hx).1, (hseen x hx).2.tail hpass⟩
            · rw [List.length_cons]
              omega
          obtain ⟨-, k', hk', htarget⟩ := hpass
          unfold effectiveFrom
          rw [if_neg (by simp [transparent]), if_neg hnew, Grammar.kind_eq_ok_iff.mpr hk']
          show (b.onlyTarget k' >>= _) = _
          rw [htarget]
          exact hrest

/-- The kind that the walk finds is the one that a kind elides to. -/
theorem effectiveKind_eq_ok_iff {kind effective : String} :
    b.effectiveKind kind = .ok effective ↔ b.Elides kind effective := by
  constructor
  · exact elides_of_effectiveFrom _ _
  · intro h
    exact effectiveFrom_eq_ok h _ [] List.nodup_nil (by simp) (by simp)

end Blueprint

end TreeSchema
