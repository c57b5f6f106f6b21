/-
Finite maps that keep their keys in order of arrival.

Assigning a value to a key that is already there keeps the place of the key; a new
key goes to the end.  `find?_insert` and `find?_empty` determine every look-up.
-/

namespace TreeSchema

/-- A finite map: its entries in the order in which their keys first came. -/
structure FinMap (κ α : Type) where
  entries : List (κ × α)
  /-- No key has two entries. -/
  distinct : (entries.map Prod.fst).Nodup
  deriving DecidableEq

namespace FinMap

variable {κ α : Type}

/-- The map without entries. -/
def empty : FinMap κ α := ⟨[], .nil⟩

instance : EmptyCollection (FinMap κ α) := ⟨empty⟩

/-- The number of keys. -/
def size (m : FinMap κ α) : Nat := m.entries.length

variable [DecidableEq κ]

/-- The value of the first entry for `k`. -/
def assoc (k : κ) : List (κ × α) → Option α
  | [] => none
  | (j, v) :: rest => if j = k then some v else assoc k rest

/-- Gives `k` the value `v`, at the place of its entry or else at the end. -/
def upsert (k : κ) (v : α) : List (κ × α) → List (κ × α)
  | [] => [(k, v)]
  | (j, w) :: rest => if j = k then (k, v) :: rest else (j, w) :: upsert k v rest

theorem map_fst_upsert (k : κ) (v : α) (es : List (κ × α)) :
    (upsert k v es).map Prod.fst =
      if k ∈ es.map Prod.fst then es.map Prod.fst else es.map Prod.fst ++ [k] := by
  induction es with
  | nil => simp [upsert]
  | cons e es ih =>
    obtain ⟨j, w⟩ := e
    by_cases h : j = k
    · subst h; simp [upsert]
    · have h' : ¬ k = j := fun e => h e.symm
      by_cases hk : k ∈ es.map Prod.fst
      · simp only [upsert, if_neg h, List.map_cons, ih, if_pos hk]
        rw [if_pos (List.mem_cons_of_mem _ hk)]
      · simp only [upsert, if_neg h, List.map_cons, ih, if_neg hk]
        rw [if_neg (by simp only [List.mem_cons, not_or]; exact ⟨h', hk⟩)]
        rfl

theorem assoc_upsert (k j : κ) (v : α) (es : List (κ × α)) :
    assoc j (upsert k v es) = if k = j then some v else assoc j es := by
  induction es with
  | nil => simp [upsert, assoc]
  | cons e es ih =>
    obtain ⟨i, w⟩ := e
    by_cases h : i = k
    · subst h
      by_cases hj : i = j <;> simp [upsert, assoc, hj]
    · by_cases hi : i = j
      · subst hi
        simp [upsert, assoc, h, Ne.symm h]
      · simp [upsert, assoc, h, hi, ih]

theorem upsert_of_assoc_eq_none {k : κ} {es : List (κ × α)} (v : α) (h : assoc k es = none) :
    upsert k v es = es ++ [(k, v)] := by
  induction es with
  | nil => rfl
  | cons e es ih =>
    obtain ⟨j, w⟩ := e
    by_cases hj : j = k
    · simp [assoc, hj] at h
    · rw [assoc, if_neg hj] at h
      rw [upsert, if_neg hj, ih h, List.cons_append]

theorem mem_of_assoc_eq_some {k : κ} {v : α} {es : List (κ × α)} (h : assoc k es = some v) :
    (k, v) ∈ es := by
  induction es with
  | nil => simp [assoc] at h
  | cons e es ih =>
    obtain ⟨j, w⟩ := e
    by_cases hj : j = k
    · simp_all [assoc]
    · rw [assoc, if_neg hj] at h
      exact List.mem_cons_of_mem _ (ih h)

theorem assoc_eq_some_of_mem {k : κ} {v : α} {es : List (κ × α)}
    (hd : (es.map Prod.fst).Nodup) (h : (k, v) ∈ es) : assoc k es = some v := by
  induction es with
  | nil => simp at h
  | cons e es ih =>
    obtain ⟨j, w⟩ := e
    obtain ⟨hj, hes⟩ := List.nodup_cons.1 hd
    rcases List.mem_cons.1 h with he | hmem
    · cases he
      simp [assoc]
    · have hne : j ≠ k := fun hjk => hj (List.mem_map.2 ⟨(k, v), hmem, hjk.symm⟩)
      rw [assoc, if_neg hne]
      exact ih hes hmem

/-- The value of `k`. -/
def find? (m : FinMap κ α) (k : κ) : Option α := assoc k m.entries

/-- The map that gives `k` the value `v` and is otherwise `m`. -/
def insert (m : FinMap κ α) (k : κ) (v : α) : FinMap κ α where
  entries := upsert k v m.entries
  distinct := by
    rw [map_fst_upsert]
    split
    · exact m.distinct
    · next h =>
      refine List.nodup_append.2 ⟨m.distinct, by simp, fun a ha b hb => ?_⟩
      rw [List.mem_singleton.1 hb]
      exact fun e => h (e ▸ ha)

/-- The map without the entries for which `keeps` fails. -/
def filter (m : FinMap κ α) (keeps : κ × α → Bool) : FinMap κ α where
  entries := m.entries.filter keeps
  distinct := m.distinct.sublist (List.filter_sublist.map Prod.fst)

/-- The map that a list of entries describes, a later entry overruling an earlier one. -/
def ofList (es : List (κ × α)) : FinMap κ α := es.foldl (fun m e => m.insert e.1 e.2) empty

@[simp] theorem find?_empty (k : κ) : (∅ : FinMap κ α).find? k = none := rfl

theorem find?_insert (m : FinMap κ α) (k j : κ) (v : α) :
    (m.insert k v).find? j = if k = j then some v else m.find? j :=
  assoc_upsert k j v m.entries

/-- A new key goes to the end. -/
theorem entries_insert_of_find?_eq_none {m : FinMap κ α} {k : κ} {v : α}
    (h : m.find? k = none) : (m.insert k v).entries = m.entries ++ [(k, v)] :=
  upsert_of_assoc_eq_none v h

theorem find?_eq_some_iff {m : FinMap κ α} {k : κ} {v : α} :
    m.find? k = some v ↔ (k, v) ∈ m.entries :=
  ⟨mem_of_assoc_eq_some, assoc_eq_some_of_mem m.distinct⟩

end FinMap

end TreeSchema
