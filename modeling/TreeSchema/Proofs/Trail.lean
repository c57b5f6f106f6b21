/-
Following a function that need not go on.

Parents of kinds, parents of nodes, parents of elements and nodes that give way to others are all
followed in the same way: from one place to the next, for as long as there is a next one.  A trail
is all that such a walk comes to.  It comes to no place twice, because from there it would go on
for ever.  And if there are only finitely many places to go on from, then a walk that comes back to
none of them has a trail.
-/
import Mathlib.Data.Finset.Card
import Mathlib.Logic.Relation

namespace TreeSchema

/-- From `a` on, `next` leads to the entries of a list one after the other, and then no further. -/
inductive Trail {α : Type} (next : α → Option α) : α → List α → Prop
  | stop {a : α} (h : next a = none) : Trail next a []
  | step {a c : α} {l : List α} (h : next a = some c) (rest : Trail next c l) :
      Trail next a (c :: l)

namespace Trail

variable {α : Type} {next : α → Option α} {a x : α} {l : List α}

/-- From a place on a trail there is a trail as well. -/
theorem exists_of_reflTransGen (h : Trail next a l)
    (hx : Relation.ReflTransGen (next · = some ·) a x) : ∃ rest, Trail next x rest := by
  induction hx with
  | refl => exact ⟨l, h⟩
  | @tail x y _ hxy ih =>
      obtain ⟨rest, hrest⟩ := ih
      cases hrest with
      | stop hx => simp [hx] at hxy
      | @step _ c rest hx hrest =>
          obtain rfl : c = y := Option.some.inj (hx.symm.trans hxy)
          exact ⟨rest, hrest⟩

/-- A trail does not come back to where it begins: from there it would go on for ever. -/
theorem acyclic (h : Trail next a l) : ¬ Relation.TransGen (next · = some ·) a a := by
  induction h with
  | stop h =>
      intro hcycle
      obtain ⟨c, hc, -⟩ := Relation.TransGen.head'_iff.mp hcycle
      simp [h] at hc
  | @step a c l h _ ih =>
      intro hcycle
      obtain ⟨c', hc', hback⟩ := Relation.TransGen.head'_iff.mp hcycle
      obtain rfl : c = c' := Option.some.inj (h.symm.trans hc')
      exact ih (Relation.TransGen.tail' hback h)

theorem reflTransGen_of_mem (h : Trail next a l) (hx : x ∈ a :: l) :
    Relation.ReflTransGen (next · = some ·) a x := by
  induction h with
  | stop => rw [List.mem_singleton.mp hx]
  | step h _ ih =>
      rcases List.mem_cons.mp hx with rfl | hx
      · exact .refl
      · exact .head h (ih hx)

theorem nodup (h : Trail next a l) : (a :: l).Nodup := by
  induction h with
  | stop => simp
  | @step a c l h rest ih =>
      refine List.nodup_cons.mpr ⟨?_, ih⟩
      intro hmem
      exact (step h rest).acyclic (Relation.TransGen.head' h (rest.reflTransGen_of_mem hmem))

/-- A trail goes on to where there is no further to go. -/
theorem getLastD_eq_none (h : Trail next a l) : next (l.getLastD a) = none := by
  induction h with
  | stop h => exact h
  | step _ _ ih => rwa [List.getLastD_cons]

/-- A way to where there is no further to go is a trail. -/
theorem exists_of_eq_none (h : Relation.ReflTransGen (next · = some ·) a x) (hx : next x = none) :
    ∃ l, Trail next a l ∧ l.getLastD a = x := by
  induction h using Relation.ReflTransGen.head_induction_on with
  | refl => exact ⟨[], .stop hx, rfl⟩
  | @head a c hstep _ ih =>
      obtain ⟨l, hl, hlast⟩ := ih
      exact ⟨c :: l, .step hstep hl, by rw [List.getLastD_cons, hlast]⟩

/-- Where there are finitely many places to go on from, and none of those ahead is come back to,
there is a trail.  Each step leaves one place behind for good. -/
theorem exists_of_acyclic {dom : Finset α}
    (hdom : ∀ {x y}, Relation.ReflTransGen (next · = some ·) a x → next x = some y → x ∈ dom)
    (h : ∀ x, Relation.ReflTransGen (next · = some ·) a x →
      ¬ Relation.TransGen (next · = some ·) x x) : ∃ l, Trail next a l := by
  classical
  induction dom using Finset.strongInduction generalizing a with
  | _ dom ih =>
    cases hc : next a with
    | none => exact ⟨[], .stop hc⟩
    | some c =>
        have hahead : ∀ {x}, Relation.ReflTransGen (next · = some ·) c x → x ≠ a := by
          rintro x hx rfl
          exact h x .refl (Relation.TransGen.head' hc hx)
        obtain ⟨l, hl⟩ := ih (dom.erase a) (Finset.erase_ssubset (hdom .refl hc))
          (fun hx hxy => Finset.mem_erase.mpr ⟨hahead hx, hdom (.head hc hx) hxy⟩)
          fun x hx => h x (.head hc hx)
        exact ⟨c :: l, .step hc hl⟩

/-- There is a trail exactly if nothing ahead is come back to. -/
theorem exists_iff {dom : Finset α} (hdom : ∀ {x y}, next x = some y → x ∈ dom) :
    (∃ l, Trail next a l) ↔ ∀ x, Relation.ReflTransGen (next · = some ·) a x →
      ¬ Relation.TransGen (next · = some ·) x x := by
  constructor
  · rintro ⟨l, h⟩ x hx
    obtain ⟨rest, hrest⟩ := h.exists_of_reflTransGen hx
    exact hrest.acyclic
  · exact exists_of_acyclic fun _ => hdom

end Trail

end TreeSchema
