/-
What a lineage holds.

`Grammar.lineage` follows parents for a bounded number of steps, and whether a kind conforms
to another is read off it.  The bound takes nothing away: it holds every kind that some
number of steps up leads to.  A longer way up passes more kinds than the grammar has, so it
passes one of them twice, and leaving the detour out makes it shorter.
-/
import Mathlib.Combinatorics.Pigeonhole
import TreeSchema.Grammar.Basic
import TreeSchema.Proofs.Trail

namespace TreeSchema.Grammar

variable {g : Grammar} {kind parent ancestor : String}

theorem kind?_eq_some_iff {name : String} {k : Kind} :
    g.kind? name = some k ↔ k ∈ g.kinds ∧ k.name = name := by
  constructor
  · exact fun h => ⟨List.mem_of_find?_eq_some h, name_of_kind?_eq_some h⟩
  · rintro ⟨hk, rfl⟩
    cases h : g.kind? k.name with
    | none => simpa using List.find?_eq_none.mp h k hk
    | some j =>
        have hj := List.mem_of_find?_eq_some h
        rw [List.inj_on_of_nodup_map g.distinct hj hk (name_of_kind?_eq_some h)]

/-- A kind derives from another in one step. -/
def DerivesFrom (g : Grammar) (kind parent : String) : Prop := g.parent? kind = some parent

theorem DerivesFrom.known (h : g.DerivesFrom kind parent) : ∃ k, g.kind? kind = some k := by
  unfold DerivesFrom parent? at h
  cases hk : g.kind? kind with
  | none => simp [hk] at h
  | some k => exact ⟨k, rfl⟩

theorem DerivesFrom.rightUnique : Relator.RightUnique g.DerivesFrom := by
  intro kind p q hp hq
  exact Option.some.inj (hp.symm.trans hq)

/-! ### A number of steps up -/

/-- The kind `n` steps above a kind. -/
def above? (g : Grammar) : Nat → String → Option String
  | 0, kind => some kind
  | n + 1, kind => (g.parent? kind).bind (g.above? n)

theorem above?_add (m n : Nat) :
    g.above? (m + n) kind = (g.above? m kind).bind (g.above? n) := by
  induction m generalizing kind with
  | zero => rw [Nat.zero_add, above?, Option.bind_some]
  | succ m ih =>
      rw [Nat.succ_add, above?, above?, Option.bind_assoc]
      congr 1
      funext parent
      exact ih

/-- On the way up to a kind there are only kinds of the grammar. -/
theorem exists_of_above?_eq_some {m n : Nat} (hm : m < n)
    (h : g.above? n kind = some ancestor) :
    ∃ k ∈ g.kinds, g.above? m kind = some k.name := by
  obtain ⟨d, rfl⟩ := Nat.exists_eq_add_of_lt hm
  rw [Nat.add_assoc, above?_add] at h
  obtain ⟨middle, hmiddle, h⟩ := Option.bind_eq_some_iff.mp h
  obtain ⟨next, hnext, -⟩ := Option.bind_eq_some_iff.mp (h : (g.parent? middle).bind _ = _)
  obtain ⟨k, hk⟩ := DerivesFrom.known hnext
  obtain ⟨hmem, hname⟩ := kind?_eq_some_iff.mp hk
  exact ⟨k, hmem, hname ▸ hmiddle⟩

theorem exists_above?_iff :
    (∃ n, g.above? n kind = some ancestor) ↔ Relation.ReflTransGen g.DerivesFrom kind ancestor := by
  constructor
  · rintro ⟨n, h⟩
    induction n generalizing kind with
    | zero =>
        rw [above?, Option.some.injEq] at h
        exact h ▸ .refl
    | succ n ih =>
        obtain ⟨parent, hp, h⟩ := Option.bind_eq_some_iff.mp h
        exact .head hp (ih h)
  · intro h
    induction h using Relation.ReflTransGen.head_induction_on with
    | refl => exact ⟨0, rfl⟩
    | head hp _ ih =>
        obtain ⟨n, hn⟩ := ih
        exact ⟨n + 1, by rw [above?, show g.parent? _ = _ from hp, Option.bind_some, hn]⟩

/-- More steps up than there are kinds come to one kind twice. -/
theorem exists_above?_eq_above? {n : Nat} (hlong : g.kinds.length < n)
    (h : g.above? n kind = some ancestor) :
    ∃ i j, i < j ∧ j < n ∧ g.above? i kind = g.above? j kind := by
  let names := (g.kinds.map fun k => some k.name).toFinset
  have hcard : names.card < (Finset.range n).card := by
    have hle : names.card ≤ g.kinds.length :=
      (List.toFinset_card_le _).trans_eq (List.length_map _)
    rw [Finset.card_range]
    exact Nat.lt_of_le_of_lt hle hlong
  have hmaps : ∀ m ∈ Finset.range n, g.above? m kind ∈ names := by
    intro m hm
    obtain ⟨k, hk, hkm⟩ := exists_of_above?_eq_some (Finset.mem_range.mp hm) h
    exact List.mem_toFinset.mpr (List.mem_map.mpr ⟨k, hk, hkm.symm⟩)
  obtain ⟨i, hi, j, hj, hne, hij⟩ := Finset.exists_ne_map_eq_of_card_lt_of_maps_to hcard hmaps
  rw [Finset.mem_range] at hi hj
  rcases Nat.lt_or_gt_of_ne hne with hlt | hgt
  · exact ⟨i, j, hlt, hj, hij⟩
  · exact ⟨j, i, hgt, hi, hij.symm⟩

/-- Where no kind above comes back to itself, the way up ends. -/
theorem above?_eq_none_of_acyclic (h : ∀ ancestor,
    Relation.ReflTransGen g.DerivesFrom kind ancestor →
      ¬ Relation.TransGen g.DerivesFrom ancestor ancestor) :
    g.above? (g.kinds.length + 1) kind = none := by
  by_contra hsome
  obtain ⟨top, htop⟩ := Option.ne_none_iff_exists'.mp hsome
  obtain ⟨i, j, hlt, hj, hij⟩ := exists_above?_eq_above? (Nat.lt_succ_self _) htop
  obtain ⟨k, -, hk⟩ := exists_of_above?_eq_some (Nat.lt_trans hlt hj) htop
  have hback : g.above? (j - i) k.name = some k.name := by
    have hsum : g.above? (i + (j - i)) kind = (g.above? i kind).bind (g.above? (j - i)) :=
      above?_add i (j - i)
    rw [Nat.add_sub_cancel' (Nat.le_of_lt hlt), ← hij, hk] at hsum
    exact hsum.symm
  obtain ⟨d, hd⟩ := Nat.exists_eq_add_of_lt hlt
  rw [show j - i = d + 1 by omega] at hback
  obtain ⟨parent, hparent, hrest⟩ := Option.bind_eq_some_iff.mp hback
  exact h k.name (exists_above?_iff.mp ⟨i, hk⟩)
    (Relation.TransGen.head' hparent (exists_above?_iff.mp ⟨d, hrest⟩))

/-- Where the way up from every kind ends, no kind comes back to itself. -/
theorem acyclic_of_above?_eq_none {n : Nat} (h : ∀ k ∈ g.kinds, g.above? n k.name = none)
    (kind : String) : ¬ Relation.TransGen g.DerivesFrom kind kind := by
  intro hcycle
  have hendless : ∀ m kind, Relation.TransGen g.DerivesFrom kind kind →
      ∃ ancestor, g.above? m kind = some ancestor := by
    intro m
    induction m with
    | zero => exact fun kind _ => ⟨kind, rfl⟩
    | succ m ih =>
        intro kind hcycle
        obtain ⟨parent, hp, hback⟩ := Relation.TransGen.head'_iff.mp hcycle
        obtain ⟨ancestor, ha⟩ := ih parent (Relation.TransGen.tail' hback hp)
        exact ⟨ancestor, Option.bind_eq_some_iff.mpr ⟨parent, hp, ha⟩⟩
  obtain ⟨parent, hp, -⟩ := Relation.TransGen.head'_iff.mp hcycle
  obtain ⟨k, hk⟩ := hp.known
  obtain ⟨hmem, rfl⟩ := kind?_eq_some_iff.mp hk
  obtain ⟨ancestor, ha⟩ := hendless n k.name hcycle
  rw [h k hmem] at ha
  cases ha

/-- Whatever is above a kind is no more steps above it than there are kinds. -/
theorem exists_le_of_above?_eq_some (n : Nat) (h : g.above? n kind = some ancestor) :
    ∃ m ≤ g.kinds.length, g.above? m kind = some ancestor := by
  induction n using Nat.strong_induction_on with
  | _ n ih =>
    rcases Nat.lt_or_ge g.kinds.length n with hlong | hshort
    · obtain ⟨i, j, hlt, hj, hij⟩ := exists_above?_eq_above? hlong h
      -- the way from the first of the two to the second is left out
      refine ih (i + (n - j)) (by omega) ?_
      rw [above?_add, hij, ← above?_add, Nat.add_sub_cancel' (Nat.le_of_lt hj), h]
    · exact ⟨n, hshort, h⟩

/-! ### Lineages -/

theorem mem_lineageUpTo_iff (n : Nat) :
    ancestor ∈ g.lineageUpTo n kind ↔ ∃ m < n, g.above? m kind = some ancestor := by
  induction n generalizing kind with
  | zero => simp [lineageUpTo]
  | succ n ih =>
      rw [Nat.exists_lt_succ_left]
      unfold lineageUpTo
      cases hp : g.parent? kind with
      | none => simp [above?, hp, eq_comm]
      | some parent => simp [above?, hp, ih, eq_comm]

/-- The bound of a lineage cuts nothing off. -/
theorem mem_lineage_iff :
    ancestor ∈ g.lineage kind ↔ Relation.ReflTransGen g.DerivesFrom kind ancestor := by
  rw [lineage, mem_lineageUpTo_iff, ← exists_above?_iff]
  constructor
  · rintro ⟨n, -, h⟩
    exact ⟨n, h⟩
  · rintro ⟨n, h⟩
    obtain ⟨m, hm, h⟩ := exists_le_of_above?_eq_some n h
    exact ⟨m, Nat.lt_succ_of_le hm, h⟩

theorem conforms_iff :
    g.conforms kind ancestor = true ↔ Relation.ReflTransGen g.DerivesFrom kind ancestor := by
  rw [conforms, decide_eq_true_iff, mem_lineage_iff]

/-- Where the way up ends, a lineage is all of it. -/
theorem trail_lineageUpTo (n : Nat) (h : g.above? n kind = none) :
    ∃ kinds, g.lineageUpTo n kind = kind :: kinds ∧ Trail g.parent? kind kinds := by
  induction n generalizing kind with
  | zero => simp [above?] at h
  | succ n ih =>
      unfold lineageUpTo
      cases hp : g.parent? kind with
      | none => exact ⟨[], rfl, .stop hp⟩
      | some parent =>
          rw [above?, hp, Option.bind_some] at h
          obtain ⟨kinds, hkinds, htrail⟩ := ih h
          exact ⟨parent :: kinds, by simp [hkinds], .step hp htrail⟩

end TreeSchema.Grammar
