/-
Which kinds a derivation discovers.

What else a schema holds has no say in whether a kind can have an entity, except for one
thing: a derivation that comes to a kind with an entity goes no deeper there.  So it matters
to which kinds it comes, and at which depth.

`discover` is a derivation with everything else left out: it goes from kind to kind and keeps
the set of those that have an entity.  A derivation of a buildable kind follows it step by
step, and gives up exactly where `discover` does.  A schema that requests lead to has all
that its own kinds lead to.  Kinds that are not in it are therefore never below one that is,
and taking such a set into account from the start takes nothing else away: the other kinds
are discovered in the same places as before.
-/
import TreeSchema.Proofs.Soundness

namespace TreeSchema

/-! ### The kinds of a schema -/

namespace Schema

variable {s : Schema} {kind : String}

/-- The kinds that have an entity. -/
def kinds (s : Schema) : Finset String := (s.ids.entries.map Prod.fst).toFinset

theorem mem_kinds_iff : kind ∈ s.kinds ↔ ∃ id, s.idOf? kind = some id := by
  rw [kinds, List.mem_toFinset, List.mem_map]
  constructor
  · rintro ⟨⟨kind, id⟩, hmem, rfl⟩
    exact ⟨id, FinMap.find?_eq_some_iff.mpr hmem⟩
  · rintro ⟨id, hid⟩
    exact ⟨(kind, id), FinMap.find?_eq_some_iff.mp hid, rfl⟩

theorem notMem_kinds_iff : kind ∉ s.kinds ↔ s.idOf? kind = none := by
  rw [mem_kinds_iff]
  cases s.idOf? kind <;> simp

@[simp] theorem kinds_empty : Schema.empty.kinds = ∅ := rfl

@[simp] theorem kinds_markParent (p : Option EntityId) : (s.markParent p).kinds = s.kinds := by
  cases p <;> rfl

theorem kinds_adopt (e : Entity) : (s.adopt e).kinds = insert e.kind s.kinds := by
  ext kind
  rw [Finset.mem_insert, mem_kinds_iff, mem_kinds_iff, idOf?_adopt]
  by_cases h : e.kind = kind
  · simp [h]
  · simp [h, Ne.symm h]

end Schema

namespace Blueprint

variable {b : Blueprint} {n : Nat} {kind : String} {seen seen' closed : Finset String}

/-! ### Going from kind to kind -/

/-- The kinds that the relations of a kind of the grammar lead to. -/
def targetsOf (b : Blueprint) (kind : String) : List String :=
  ((b.grammar.kind? kind).map b.targets).getD []

/-- The kinds that have an entity once `kind` has one, if those in `seen` have one already:
first the parent, then the kind, then what its relations lead to.  Gives up if there are more
than `n` kinds inside one another. -/
def discover (b : Blueprint) : Nat → Finset String → String → Option (Finset String)
  | 0, seen, kind => if kind ∈ seen then some seen else none
  | n + 1, seen, kind =>
    if kind ∈ seen then some seen
    else do
      let above ← (b.grammar.parent? kind).toList.foldlM (b.discover n) seen
      if kind ∈ above then some above
      else (b.targetsOf kind).foldlM (b.discover n) (insert kind above)

theorem discover_of_mem (h : kind ∈ seen) : b.discover n seen kind = some seen := by
  cases n <;> simp [discover, h]

/-- A kind that is new is reached one level up, on the way to its parent or by itself. -/
theorem discover_eq_some_iff (h : kind ∉ seen) :
    b.discover (n + 1) seen kind = some seen' ↔
      ∃ above, (b.grammar.parent? kind).toList.foldlM (b.discover n) seen = some above ∧
        (kind ∈ above ∧ above = seen' ∨
          kind ∉ above ∧
            (b.targetsOf kind).foldlM (b.discover n) (insert kind above) = some seen') := by
  rw [discover, if_neg h]
  show Option.bind _ _ = _ ↔ _
  rw [Option.bind_eq_some_iff]
  refine exists_congr fun above => and_congr_right fun _ => ?_
  by_cases hmem : kind ∈ above <;> simp [hmem]

theorem leads_of_mem_parent {parent : String} (h : parent ∈ (b.grammar.parent? kind).toList) :
    b.Leads kind parent :=
  .parent (Option.mem_toList.mp h)

theorem leads_of_mem_targetsOf {target : String} (h : target ∈ b.targetsOf kind) :
    b.Leads kind target := by
  unfold targetsOf at h
  cases hk : b.grammar.kind? kind with
  | none => simp [hk] at h
  | some k => exact .relation hk (by simpa [hk] using h)

/-- A set that has all that its kinds lead to. -/
def Closed (b : Blueprint) (closed : Finset String) : Prop :=
  ∀ kind ∈ closed, ∀ other, b.Leads kind other → other ∈ closed

/-- No kind is lost on the way. -/
theorem subset_of_discover_eq_some (h : b.discover n seen kind = some seen') : seen ⊆ seen' := by
  induction n generalizing seen kind seen' with
  | zero =>
      unfold discover at h
      split at h
      · cases h
        exact Finset.Subset.refl _
      · cases h
  | succ n ih =>
      by_cases hmem : kind ∈ seen
      · rw [discover_of_mem hmem, Option.some.injEq] at h
        exact h ▸ Finset.Subset.refl _
      have hall : ∀ {l : List String} {start stop : Finset String},
          l.foldlM (b.discover n) start = some stop → start ⊆ stop := fun {_ start _} h =>
        foldlM_invariant (I := fun c => start ⊆ c) (Finset.Subset.refl start)
          (fun _ _ _ _ hsub hx => Finset.Subset.trans hsub (ih hx)) h
      obtain ⟨above, habove, ⟨-, rfl⟩ | ⟨-, hrest⟩⟩ := (discover_eq_some_iff hmem).mp h
      · exact hall habove
      · exact Finset.Subset.trans (hall habove)
          (Finset.Subset.trans (Finset.subset_insert _ _) (hall hrest))

/-- From a kind in a closed set only kinds of that set are discovered. -/
theorem subset_union_of_discover_eq_some (hclosed : b.Closed closed) (hkind : kind ∈ closed)
    (h : b.discover n seen kind = some seen') : seen' ⊆ seen ∪ closed := by
  induction n generalizing seen kind seen' with
  | zero =>
      unfold discover at h
      split at h
      · cases h
        exact Finset.subset_union_left
      · cases h
  | succ n ih =>
      by_cases hmem : kind ∈ seen
      · rw [discover_of_mem hmem, Option.some.injEq] at h
        exact h ▸ Finset.subset_union_left
      have hall : ∀ {l : List String} {start stop : Finset String}, (∀ x ∈ l, x ∈ closed) →
          start ⊆ seen ∪ closed → l.foldlM (b.discover n) start = some stop →
          stop ⊆ seen ∪ closed := fun hl hstart h =>
        foldlM_invariant (I := fun c => c ⊆ seen ∪ closed) hstart
          (fun c x c' hx hsub hstep => Finset.Subset.trans (ih (hl x hx) hstep)
            (Finset.union_subset hsub Finset.subset_union_right)) h
      have hparent : ∀ x ∈ (b.grammar.parent? kind).toList, x ∈ closed :=
        fun x hx => hclosed kind hkind x (leads_of_mem_parent hx)
      have htargets : ∀ x ∈ b.targetsOf kind, x ∈ closed :=
        fun x hx => hclosed kind hkind x (leads_of_mem_targetsOf hx)
      obtain ⟨above, habove, ⟨-, rfl⟩ | ⟨-, hrest⟩⟩ := (discover_eq_some_iff hmem).mp h
      · exact hall hparent Finset.subset_union_left habove
      · have hsub := hall hparent Finset.subset_union_left habove
        exact hall htargets
          (Finset.insert_subset (Finset.mem_union_right _ hkind) hsub) hrest

/-- A kind that is there already, or in a closed set, adds nothing to both. -/
theorem union_eq_of_discover_eq_some (hclosed : b.Closed closed) (hkind : kind ∈ seen ∪ closed)
    (h : b.discover n seen kind = some seen') : seen' ∪ closed = seen ∪ closed := by
  apply Finset.Subset.antisymm
  · refine Finset.union_subset ?_ Finset.subset_union_right
    rcases Finset.mem_union.mp hkind with hseen | hmem
    · rw [discover_of_mem hseen, Option.some.injEq] at h
      exact h ▸ Finset.subset_union_left
    · exact subset_union_of_discover_eq_some hclosed hmem h
  · exact Finset.union_subset_union_left (subset_of_discover_eq_some h)

/-- With a closed set of kinds there from the start, the others are discovered as before. -/
theorem discover_union (hclosed : b.Closed closed) (h : b.discover n seen kind = some seen') :
    b.discover n (seen ∪ closed) kind = some (seen' ∪ closed) := by
  induction n generalizing seen kind seen' with
  | zero =>
      unfold discover at h
      split at h
      · next hseen =>
        cases h
        exact discover_of_mem (Finset.mem_union_left _ hseen)
      · cases h
  | succ n ih =>
      by_cases hthere : kind ∈ seen ∪ closed
      · rw [discover_of_mem hthere, union_eq_of_discover_eq_some hclosed hthere h]
      have hseen : kind ∉ seen := fun hmem => hthere (Finset.mem_union_left _ hmem)
      have hout : kind ∉ closed := fun hmem => hthere (Finset.mem_union_right _ hmem)
      have hall : ∀ {l : List String} {start stop : Finset String},
          l.foldlM (b.discover n) start = some stop →
          l.foldlM (b.discover n) (start ∪ closed) = some (stop ∪ closed) :=
        foldlM_map (g := (· ∪ closed)) fun _ _ _ hx => ih hx
      obtain ⟨above, habove, hrest⟩ := (discover_eq_some_iff hseen).mp h
      refine (discover_eq_some_iff hthere).mpr ⟨above ∪ closed, hall habove, ?_⟩
      rcases hrest with ⟨hmem, rfl⟩ | ⟨hmem, hrest⟩
      · exact .inl ⟨Finset.mem_union_left _ hmem, rfl⟩
      · refine .inr ⟨?_, ?_⟩
        · intro hboth
          rcases Finset.mem_union.mp hboth with habove | hmem'
          · exact hmem habove
          · exact hout hmem'
        · rw [← Finset.insert_union]
          exact hall hrest

end Blueprint

end TreeSchema
