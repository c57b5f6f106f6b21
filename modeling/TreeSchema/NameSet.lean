/-
Finite sets of names.

A set is kept as its strictly ascending list of members, so two sets with the same
members are the same value and the list is the order in which a set is written.
`mem_insert` is what every use of `insert` rests on.
-/

namespace TreeSchema

/-- A finite set of names, as the strictly ascending list of its members. -/
structure NameSet where
  /-- The members in code-point order. -/
  toList : List String
  /-- Ascending, hence free of repetitions. -/
  ascending : toList.Pairwise (· < ·)
  deriving DecidableEq

namespace NameSet

/-- The set without members. -/
def empty : NameSet := ⟨[], .nil⟩

instance : EmptyCollection NameSet := ⟨empty⟩

instance : Membership String NameSet := ⟨fun s name => name ∈ s.toList⟩

instance (name : String) (s : NameSet) : Decidable (name ∈ s) :=
  inferInstanceAs (Decidable (name ∈ s.toList))

/-- Puts `name` at its place in an ascending list, once. -/
def insertSorted (name : String) : List String → List String
  | [] => [name]
  | n :: ns =>
    if name < n then name :: n :: ns
    else if name = n then n :: ns
    else n :: insertSorted name ns

theorem mem_insertSorted {name x : String} {ns : List String} :
    x ∈ insertSorted name ns ↔ x = name ∨ x ∈ ns := by
  induction ns with
  | nil => simp [insertSorted]
  | cons n ns ih =>
    simp only [insertSorted]
    split
    · simp
    · split
      · next h => subst h; simp
      · simp only [List.mem_cons, ih]
        exact or_left_comm

theorem pairwise_insertSorted {name : String} {ns : List String}
    (h : ns.Pairwise (· < ·)) : (insertSorted name ns).Pairwise (· < ·) := by
  induction ns with
  | nil => simp [insertSorted]
  | cons n ns ih =>
    obtain ⟨hn, hns⟩ := List.pairwise_cons.1 h
    simp only [insertSorted]
    split
    · next hlt =>
      refine List.pairwise_cons.2 ⟨fun x hx => ?_, h⟩
      rcases List.mem_cons.1 hx with rfl | hx
      · exact hlt
      · exact String.lt_trans hlt (hn x hx)
    · next hnlt =>
      split
      · exact h
      · next hne =>
        refine List.pairwise_cons.2 ⟨fun x hx => ?_, ih hns⟩
        rcases mem_insertSorted.1 hx with rfl | hx
        · exact Std.lt_of_le_of_ne (Std.not_lt.1 hnlt) (Ne.symm hne)
        · exact hn x hx

/-- The set with `name` added. -/
def insert (s : NameSet) (name : String) : NameSet :=
  ⟨insertSorted name s.toList, pairwise_insertSorted s.ascending⟩

/-- The set of the members of a list. -/
def ofList (names : List String) : NameSet := names.foldl insert empty

@[simp] theorem not_mem_empty (name : String) : name ∉ (∅ : NameSet) :=
  List.not_mem_nil

@[simp] theorem mem_insert {s : NameSet} {name x : String} :
    x ∈ s.insert name ↔ x = name ∨ x ∈ s := mem_insertSorted

end NameSet

end TreeSchema
