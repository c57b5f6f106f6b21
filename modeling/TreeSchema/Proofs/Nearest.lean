/-
What a kind conforms to, and where its slots come from.

Both questions go up from parent to parent, and both give up after one step more than there are
kinds.  Nothing is lost by that, however the parents are linked: what is that many steps up has been
passed before, unless it is a parent that the grammar does not define, and then it is the end.  So
the lineage is read as the row of all kinds above, of which the first with a slot of the name
decides.  If there is one at all then the first of them is within the bound, because a kind that is
further up is one that was passed.
-/
import TreeSchema.Proofs.Lineage

namespace TreeSchema

/-- The first entry that something is found for, by its place. -/
theorem findSome?_eq_some_iff_getElem? {α β : Type} {f : α → Option β} {l : List α} {b : β} :
    l.findSome? f = some b ↔
      ∃ n : Nat, (∃ a, l[n]? = some a ∧ f a = some b) ∧
        ∀ m < n, ∀ a, l[m]? = some a → f a = none := by
  rw [List.findSome?_eq_some_iff]
  constructor
  · rintro ⟨before, a, rest, rfl, ha, hbefore⟩
    refine ⟨before.length, ⟨a, by simp, ha⟩, ?_⟩
    intro m hm x hx
    rw [List.getElem?_append_left hm] at hx
    exact hbefore x (List.mem_of_getElem? hx)
  · rintro ⟨n, ⟨a, hat, ha⟩, hfirst⟩
    obtain ⟨hlt, hget⟩ := List.getElem?_eq_some_iff.mp hat
    refine ⟨l.take n, a, l.drop (n + 1), ?_, ha, ?_⟩
    · rw [← hget, List.getElem_cons_drop, List.take_append_drop]
    · intro x hx
      obtain ⟨m, hm, hx⟩ := List.mem_take_iff_getElem.mp hx
      exact hfirst m (by omega) x (List.getElem?_eq_some_iff.mpr ⟨by omega, hx⟩)

namespace Grammar

variable {g : Grammar} {kind name holder : String} {slot : Slot} {n : Nat}

/-- The first slot of the given name among those of a kind itself. -/
def ownSlot? (g : Grammar) (kind name : String) : Option Slot :=
  (g.kind? kind).bind (·.slot? name)

/-- A lineage lists what is above a kind, step by step. -/
theorem getElem?_lineageUpTo (n m : Nat) :
    (g.lineageUpTo n kind)[m]? = if m < n then g.above? m kind else none := by
  induction n generalizing m kind with
  | zero => simp [lineageUpTo]
  | succ n ih =>
      unfold lineageUpTo
      cases m with
      | zero => simp [above?]
      | succ m =>
          rw [List.getElem?_cons_succ, above?]
          cases hp : g.parent? kind with
          | none => simp
          | some parent => simp [ih]

theorem getElem?_lineage_eq_some_iff {m : Nat} :
    (g.lineage kind)[m]? = some holder ↔ m ≤ g.kinds.length ∧ g.above? m kind = some holder := by
  rw [lineage, getElem?_lineageUpTo]
  split
  · simp; omega
  · simp; omega

/-- The slot `slot` is that of the kind `n` steps up, and no kind below that one has any of the
name. -/
structure Nearest (g : Grammar) (kind name : String) (slot : Slot) (n : Nat) : Prop where
  holder : ∃ holder, g.above? n kind = some holder ∧ g.ownSlot? holder name = some slot
  first : ∀ m < n, ∀ below, g.above? m kind = some below → g.ownSlot? below name = none

/-- The nearest kind with a slot is within the bound of a lineage. -/
theorem Nearest.le (h : g.Nearest kind name slot n) : n ≤ g.kinds.length := by
  obtain ⟨holder, hholder, hslot⟩ := h.holder
  obtain ⟨m, hm, hpassed⟩ := exists_le_of_above?_eq_some n hholder
  by_contra hlong
  have hnone := h.first m (by omega) holder hpassed
  rw [hslot] at hnone
  cases hnone

theorem slot?_eq_some_iff : g.slot? kind name = some slot ↔ ∃ n, g.Nearest kind name slot n := by
  unfold slot?
  rw [findSome?_eq_some_iff_getElem?]
  refine exists_congr fun n => ?_
  constructor
  · rintro ⟨⟨holder, hat, hslot⟩, hfirst⟩
    obtain ⟨hn, hholder⟩ := getElem?_lineage_eq_some_iff.mp hat
    refine ⟨⟨holder, hholder, hslot⟩, ?_⟩
    intro m hm below hbelow
    exact hfirst m hm below (getElem?_lineage_eq_some_iff.mpr ⟨by omega, hbelow⟩)
  · intro h
    obtain ⟨holder, hholder, hslot⟩ := h.holder
    refine ⟨⟨holder, getElem?_lineage_eq_some_iff.mpr ⟨h.le, hholder⟩, hslot⟩, ?_⟩
    intro m hm below hbelow
    exact h.first m hm below (getElem?_lineage_eq_some_iff.mp hbelow).2

theorem slot?_eq_none_iff : g.slot? kind name = none ↔
    ∀ holder, Relation.ReflTransGen g.DerivesFrom kind holder → g.ownSlot? holder name = none := by
  unfold slot?
  rw [List.findSome?_eq_none_iff]
  exact forall_congr' fun holder => imp_congr_left mem_lineage_iff

/--
**The bound on walks up cuts nothing off.**  However the parents of a grammar are linked, a kind
conforms to those kinds that some number of steps up leads to, itself among them, and to no others.
The slot that is found for it is the first of the name that the nearest of these kinds has, and if
none is found then none of them has one.
-/
theorem walks_up_exact (g : Grammar) (kind target name : String) :
    (g.conforms kind target = true ↔ Relation.ReflTransGen g.DerivesFrom kind target) ∧
      (∀ slot, g.slot? kind name = some slot ↔ ∃ n, g.Nearest kind name slot n) ∧
      (g.slot? kind name = none ↔ ∀ holder,
        Relation.ReflTransGen g.DerivesFrom kind holder → g.ownSlot? holder name = none) :=
  ⟨conforms_iff, fun _ => slot?_eq_some_iff, slot?_eq_none_iff⟩

/-- Two kinds that derive from each other: each conforms to both and to nothing else, and each has
the slots of both. -/
example :
    let g := Grammar.ofParts "rounds" none
      [⟨"A", some "B", []⟩, ⟨"B", some "A", [.ofItem (.node "A") .single]⟩] []
    g.conforms "A" "B" = true ∧ g.conforms "A" "A" = true ∧ g.conforms "A" "C" = false ∧
      g.slot? "A" "a" = some (.ofItem (.node "A") .single) ∧ g.slot? "A" "b" = none := by
  decide +kernel

end Grammar

end TreeSchema
