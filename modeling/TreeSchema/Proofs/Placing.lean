/-
The kinds of a grammar and an index of them.

A kind is put in the place of the one with its name, or else at the end.  A table that does so can
keep the place of each name in an index instead of looking through its kinds: a kind that takes the
place of another has the same name, so no entry of the index becomes wrong.  The index says at each
time what a search through the kinds would find.  Hence it need not be kept with the kinds: it comes
out the same when the kinds of the table are defined anew, each of which then goes to the end.
-/
import TreeSchema.Grammar.Basic
import Mathlib.Data.List.Nodup

namespace TreeSchema.Grammar

variable {k : Kind} {ks js : List Kind} {name : String} {i : Nat}

/-! ### Kinds with different names -/

theorem place_of_notMem (h : k.name ∉ ks.map Kind.name) : place k ks = ks ++ [k] := by
  induction ks with
  | nil => rfl
  | cons j ks ih =>
      rw [List.map_cons, List.mem_cons, not_or] at h
      rw [place, if_neg (Ne.symm h.1), ih h.2, List.cons_append]

/-- Kinds with different names go to the end one after the other. -/
theorem foldl_place (h : ((js ++ ks).map Kind.name).Nodup) :
    ks.foldl (fun js k => place k js) js = js ++ ks := by
  induction ks generalizing js with
  | nil => rw [List.foldl_nil, List.append_nil]
  | cons k ks ih =>
      have hnew : k.name ∉ js.map Kind.name := by
        intro hold
        rw [List.map_append] at h
        exact (List.nodup_append.mp h).2.2 _ hold _ List.mem_cons_self rfl
      rw [List.append_cons] at h
      rw [List.foldl_cons, place_of_notMem hnew, ih h, List.append_assoc]
      rfl

theorem foldl_define (ks : List Kind) (g : Grammar) :
    (ks.foldl define g).name = g.name ∧ (ks.foldl define g).base = g.base ∧
      (ks.foldl define g).kinds = ks.foldl (fun js k => place k js) g.kinds ∧
      (ks.foldl define g).vocabulary = g.vocabulary := by
  induction ks generalizing g with
  | nil => exact ⟨rfl, rfl, rfl, rfl⟩
  | cons k ks ih => exact ih (g.define k)

/-! ### Places by name -/

theorem getElem?_concat_eq_some_iff {α : Type} {l : List α} {a b : α} :
    (l ++ [a])[i]? = some b ↔ l[i]? = some b ∨ l.length = i ∧ a = b := by
  by_cases hi : i < l.length
  · rw [List.getElem?_append_left hi]
    simp; omega
  · rw [List.getElem?_append_right (by omega), List.getElem?_eq_none (l := l) (by omega)]
    rw [List.getElem?_singleton]
    simp; omega

/-- Kinds in their order with the places of their names. -/
structure Table where
  kinds : List Kind
  index : FinMap String Nat

namespace Table

/-- The table without kinds. -/
def empty : Table := ⟨[], ∅⟩

/-- Puts a kind at the place of its name, or at the end. -/
def enter (t : Table) (k : Kind) : Table :=
  match t.index.find? k.name with
  | some i => ⟨t.kinds.set i k, t.index⟩
  | none => ⟨t.kinds ++ [k], t.index.insert k.name t.kinds.length⟩

/-- The table that some kinds are put into one after the other. -/
def of (ks : List Kind) : Table := ks.foldl enter empty

/-- The kind at the place of a name. -/
def kind? (t : Table) (name : String) : Option Kind := (t.index.find? name).bind (t.kinds[·]?)

/-- The index has the place of each kind, and no other. -/
def Right (t : Table) : Prop :=
  ∀ name i, t.index.find? name = some i ↔ (t.kinds.map Kind.name)[i]? = some name

variable {t u : Table}

theorem right_empty : Right empty := by
  intro name i
  simp [empty]

/-- A name has one place. -/
theorem Right.place_unique (h : t.Right) (hi : (t.kinds.map Kind.name)[i]? = some name)
    {m : Nat} (hm : (t.kinds.map Kind.name)[m]? = some name) : m = i := by
  have hi' : t.index.find? name = some i := (h name i).mpr hi
  have hm' : t.index.find? name = some m := (h name m).mpr hm
  exact Option.some.inj (hm'.symm.trans hi')

theorem Right.notMem (h : t.Right) (hnone : t.index.find? name = none) :
    name ∉ t.kinds.map Kind.name := by
  intro hmem
  obtain ⟨i, hi⟩ := List.getElem?_of_mem hmem
  rw [(h name i).mpr hi] at hnone
  cases hnone

/-- A kind at the place of its name is where it is put. -/
theorem place_eq_set (hi : (ks.map Kind.name)[i]? = some k.name)
    (hfirst : ∀ m, (ks.map Kind.name)[m]? = some k.name → m = i) : place k ks = ks.set i k := by
  induction ks generalizing i with
  | nil => cases hi
  | cons j ks ih =>
      by_cases hj : j.name = k.name
      · have hzero : 0 = i := hfirst 0 (by simp [hj])
        rw [place, if_pos hj, ← hzero, List.set_cons_zero]
      · cases i with
        | zero => exact absurd (by simpa using hi) hj
        | succ i =>
            rw [place, if_neg hj, List.set_cons_succ, ih (by simpa using hi)]
            intro m hm
            have hnext := hfirst (m + 1) (by simpa using hm)
            omega

/-- The kinds of a table are put where they belong. -/
theorem Right.kinds_enter (h : t.Right) (k : Kind) : (t.enter k).kinds = place k t.kinds := by
  unfold enter
  split
  · next i hi =>
      have hat := (h k.name i).mp hi
      exact (place_eq_set hat fun m hm => h.place_unique hat hm).symm
  · next hnone => exact (place_of_notMem (h.notMem hnone)).symm

theorem Right.enter (h : t.Right) (k : Kind) : (t.enter k).Right := by
  intro name i
  unfold Table.enter
  split
  · next j hj =>
      -- The kind that goes has the name of the one that comes.
      have hat := (h k.name j).mp hj
      have hsame : (t.kinds.set j k).map Kind.name = t.kinds.map Kind.name := by
        obtain ⟨hlt, hget⟩ := List.getElem?_eq_some_iff.mp hat
        rw [List.map_set, ← hget, List.set_getElem_self]
      rw [hsame]
      exact h name i
  · next hnone =>
      show (t.index.insert k.name t.kinds.length).find? name = some i ↔ _
      rw [FinMap.find?_insert, List.map_append, List.map_singleton, getElem?_concat_eq_some_iff,
        List.length_map]
      by_cases hname : k.name = name
      · have hnew : (t.kinds.map Kind.name)[i]? ≠ some name := by
          intro hat
          exact h.notMem (hname ▸ hnone) (List.mem_of_getElem? hat)
        rw [if_pos hname, Option.some.injEq, or_iff_right hnew, and_iff_left hname]
      · rw [if_neg hname, h name i]
        exact (or_iff_left fun hend => hname hend.2).symm

/-- A table is what its kinds were put to, and its index is right. -/
theorem Right.foldl_enter (ks : List Kind) (h : t.Right) :
    (ks.foldl Table.enter t).kinds = ks.foldl (fun js k => place k js) t.kinds ∧
      (ks.foldl Table.enter t).Right := by
  induction ks generalizing t with
  | nil => exact ⟨rfl, h⟩
  | cons k ks ih =>
      rw [List.foldl_cons, List.foldl_cons, ← h.kinds_enter k]
      exact ih (h.enter k)

theorem right_of (ks : List Kind) : (of ks).Right := (right_empty.foldl_enter ks).2

theorem kinds_of (ks : List Kind) : (of ks).kinds = ks.foldl (fun js k => place k js) [] :=
  (right_empty.foldl_enter ks).1

theorem kinds_of_nodup (h : (ks.map Kind.name).Nodup) : (of ks).kinds = ks :=
  (kinds_of ks).trans (foldl_place h)

/-- At the place of a name is the kind that a search for the name finds. -/
theorem Right.kind?_eq (h : t.Right) (name : String) :
    t.kind? name = t.kinds.find? (·.name = name) := by
  unfold kind?
  cases hplace : t.index.find? name with
  | none =>
      have hnew := h.notMem hplace
      symm
      rw [Option.bind_none, List.find?_eq_none]
      intro k hk hname
      exact hnew (List.mem_map.mpr ⟨k, hk, by simpa using hname⟩)
  | some i =>
      have hat := (h name i).mp hplace
      rw [List.getElem?_map, Option.map_eq_some_iff] at hat
      obtain ⟨k, hk, hname⟩ := hat
      symm
      rw [Option.bind_some, hk, List.find?_eq_some_iff_getElem]
      obtain ⟨hlt, hget⟩ := List.getElem?_eq_some_iff.mp hk
      refine ⟨by simpa using hname, i, hlt, hget, ?_⟩
      intro m hm
      have hfirst : t.kinds[m].name ≠ name := by
        intro hsame
        have hplaced : (t.kinds.map Kind.name)[m]? = some name := by
          rw [List.getElem?_map, List.getElem?_eq_getElem (by omega), Option.map_some, hsame]
        have hi : (t.kinds.map Kind.name)[i]? = some name := (h name i).mp hplace
        exact absurd (h.place_unique hi hplaced) (by omega)
      simpa using hfirst

/-- The kinds alone decide what a right index says. -/
theorem Right.index_eq (ht : t.Right) (hu : u.Right) (hkinds : u.kinds = t.kinds) (name : String) :
    u.index.find? name = t.index.find? name := by
  refine Option.ext fun i => ?_
  rw [hu name i, ht name i, hkinds]

end Table

end TreeSchema.Grammar
