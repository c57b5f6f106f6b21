/-
Looking up in a changed schema.

A derivation changes a schema in two ways only: it adds an entity at the end, or it
changes one entity in its place.  What each look-up answers afterwards is said here once,
so that no later proof opens the array or the map of kinds.  The last section is about
cutting a schema off after its first entities, which is how a failed derivation is taken
back: entities past the cut do not matter, and a change before it can be made after it.
-/
import Mathlib.Data.List.Basic
import TreeSchema.Schema.Basic

namespace TreeSchema

theorem EntityId.ext_iff {i j : EntityId} : i = j ↔ i.index = j.index := by
  cases i; cases j; simp

namespace Schema

variable {s : Schema} {e : Entity} {id j : EntityId} {f g : Entity → Entity} {n : Nat}

theorem index_lt (h : s.entity? id = some e) : id.index < s.size :=
  (Array.getElem?_eq_some_iff.mp h).1

theorem entity?_of_lt (h : id.index < s.size) : ∃ e, s.entity? id = some e :=
  ⟨_, Array.getElem?_eq_getElem h⟩

theorem entity_eq_ok_iff : s.entity id = .ok e ↔ s.entity? id = some e := by
  unfold entity
  cases s.entity? id <;> simp

/-! ### One more entity -/

@[simp] theorem size_push : (s.push e).size = s.size + 1 := Array.size_push ..

theorem entity?_push :
    (s.push e).entity? id = if id.index = s.size then some e else s.entity? id := by
  unfold push entity? size
  exact Array.getElem?_push

theorem idOf?_push (kind : String) :
    (s.push e).idOf? kind = if e.kind = kind then some e.id else s.idOf? kind :=
  FinMap.find?_insert ..

/-! ### One entity changed -/

@[simp] theorem size_modify : (s.modify id f).size = s.size := Array.size_modify

@[simp] theorem idOf?_modify (kind : String) : (s.modify id f).idOf? kind = s.idOf? kind := rfl

theorem entity?_modify :
    (s.modify id f).entity? j = if id = j then (s.entity? j).map f else s.entity? j := by
  unfold modify entity?
  rw [Array.getElem?_modify]
  exact if_congr EntityId.ext_iff.symm rfl rfl

theorem entity?_modify_self : (s.modify id f).entity? id = (s.entity? id).map f := by
  rw [entity?_modify, if_pos rfl]

theorem entity?_modify_ne (h : id ≠ j) : (s.modify id f).entity? j = s.entity? j := by
  rw [entity?_modify, if_neg h]

/-- Two schemas with the same kinds are the same if all their entities are. -/
theorem ext_entity? {s t : Schema} (hids : s.ids = t.ids)
    (h : ∀ id, s.entity? id = t.entity? id) : s = t := by
  cases s
  cases t
  cases hids
  congr 1
  exact Array.ext_getElem? fun i => h ⟨i⟩

/-- A change that gives back the entity that is there changes nothing. -/
theorem modify_eq_self (h : ∀ e, s.entity? id = some e → f e = e) : s.modify id f = s := by
  refine ext_entity? rfl fun j => ?_
  rw [entity?_modify]
  split
  · next hj =>
    subst hj
    cases he : s.entity? id with
    | none => rfl
    | some e => rw [Option.map_some, h e he]
  · rfl

theorem modify_modify : (s.modify id f).modify id g = s.modify id (g ∘ f) := by
  refine ext_entity? rfl fun j => ?_
  simp only [entity?_modify]
  split
  · rw [Option.map_map]
  · rfl

/-! ### The first entities only -/

theorem entity?_take :
    (s.take n).entity? id = if id.index < n then s.entity? id else none := by
  unfold take entity?
  rw [Array.take_eq_extract, Array.getElem?_extract]
  simp only [Nat.sub_zero, Nat.zero_add]
  by_cases h : id.index < n
  · rw [if_pos h]
    by_cases hs : id.index < s.entities.size
    · rw [if_pos (by omega)]
    · rw [if_neg (by omega), Array.getElem?_eq_none (by omega)]
  · rw [if_neg h, if_neg (by omega)]

theorem take_modify : (s.modify id f).take n = (s.take n).modify id f := by
  refine ext_entity? rfl fun j => ?_
  simp only [entity?_take, entity?_modify]
  by_cases hj : j.index < n <;> by_cases hid : id = j <;> simp [hj, hid]

/-- A change past the cut is cut off. -/
theorem take_modify_of_le (h : n ≤ id.index) : (s.modify id f).take n = s.take n := by
  rw [take_modify]
  refine modify_eq_self fun e he => ?_
  rw [entity?_take, if_neg (by omega)] at he
  simp at he

/-- An entity past the cut is cut off, if its kind was not there before. -/
theorem take_push_of_le (hn : n ≤ s.size) (hid : n ≤ e.id.index)
    (hfresh : s.idOf? e.kind = none) : (s.push e).take n = s.take n := by
  refine ext_entity? ?_ fun j => ?_
  · have h := FinMap.entries_insert_of_find?_eq_none (v := e.id) hfresh
    have hcut : ¬ e.id.index < n := by omega
    simp only [take, push, FinMap.filter, FinMap.mk.injEq, h, List.filter_append]
    simp [hcut]
  · rw [entity?_take, entity?_take, entity?_push]
    split
    · next hj => rw [if_neg (by omega)]
    · rfl

/-- Cutting after the last entity cuts nothing off. -/
theorem take_size (h : ∀ kind id, s.idOf? kind = some id → id.index < s.size) :
    s.take s.size = s := by
  refine ext_entity? ?_ fun j => ?_
  · simp only [take, FinMap.filter]
    congr 1
    exact List.filter_eq_self.mpr fun ⟨kind, id⟩ hm => by
      simpa using h kind id (FinMap.find?_eq_some_iff.mpr hm)
  · rw [entity?_take]
    split
    · rfl
    · next hj => exact (Array.getElem?_eq_none (Nat.not_lt.mp hj)).symm

end Schema

end TreeSchema
