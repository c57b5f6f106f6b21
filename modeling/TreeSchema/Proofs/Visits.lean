/-
What a visit shows, and where it ends.

The calls of the visitor go along a list, a row of elements in which each is followed by what is
below it.  They end where the visitor fails, or else at the first element that is too deep, which is
the first child of one at the last level: the children of that one were asked for, but none of them
is shown.  Where they end early the rest of the list can still be asked for, so there always is a
whole list that they are the beginning of.

That a call which fails is the last one is seen apart from all this, from the walk alone: it holds
as well where children cannot be got, and whatever the visitor does to the schema.
-/
import TreeSchema.Proofs.Exposure
import TreeSchema.Proofs.Preorder

namespace TreeSchema

namespace Visitor

variable {b : Blueprint} {σ : Type} {visitor : Visitor b σ} {s : Schema}

/-- Some time after `s` a visitor may fail with an element. -/
def Fails (visitor : Visitor b σ) (s : Schema) (d : Element) (err : Error) : Prop :=
  ∃ y y', Evolves b s y.1 ∧ visitor.act d y = .error err y'

/-- After `s` a visitor never fails. -/
def Unfailing (visitor : Visitor b σ) (s : Schema) : Prop :=
  ∀ d y, Evolves b s y.1 → ∃ y', visitor.act d y = .ok () y'

theorem Unfailing.not_fails (h : visitor.Unfailing s) (d : Element) (err : Error) :
    ¬ visitor.Fails s d err := by
  rintro ⟨y, y', hevolves, hfails⟩
  obtain ⟨y'', hok⟩ := h d y hevolves
  rw [hok] at hfails
  cases hfails

end Visitor

namespace View

/-! ### Calls along a list -/

section Levels

variable {max level : Nat}

/-- The elements of a list before the first that is deeper than `max`. -/
def within (max : Nat) (ps : List (Nat × Element)) : List Element :=
  (ps.takeWhile (·.1 ≤ max)).map Prod.snd

theorem within_cons_of_le (h : level ≤ max) (c : Element) (ps : List (Nat × Element)) :
    within max ((level, c) :: ps) = c :: within max ps := by
  rw [within, List.takeWhile_cons_of_pos (by simpa using h)]
  rfl

theorem within_cons_of_lt (h : max < level) (c : Element) (ps : List (Nat × Element)) :
    within max ((level, c) :: ps) = [] := by
  rw [within, List.takeWhile_cons_of_neg (by simpa using h)]
  rfl

end Levels

/-- The record of calls that all succeeded. -/
def succeeded (shown : List Element) : Record := shown.map fun d => (d, none)

theorem succeeded_concat (shown : List Element) (d : Element) :
    succeeded shown ++ [(d, none)] = succeeded (shown ++ [d]) := by
  rw [succeeded, succeeded, List.map_append]
  rfl

/-- The calls of a visitor along a list of elements with their levels, up to the first that is
deeper than `max`, and the error that they end with, if there is one.  Of the calls of the visitor
themselves some may fail. -/
inductive Calls (max : Nat) (fails : Element → Error → Prop) :
    List (Nat × Element) → Record → Option Error → Prop
  | done : Calls max fails [] [] none
  | deep {level : Nat} {c : Element} {ps : List (Nat × Element)} (h : max < level) :
      Calls max fails ((level, c) :: ps) [] (some (.tooDeep max))
  | failed {level : Nat} {c : Element} {ps : List (Nat × Element)} {err : Error} (h : level ≤ max)
      (hfails : fails c err) : Calls max fails ((level, c) :: ps) [(c, some err)] (some err)
  | shown {level : Nat} {c : Element} {ps : List (Nat × Element)} {calls : Record}
      {o : Option Error} (h : level ≤ max) (on : Calls max fails ps calls o) :
      Calls max fails ((level, c) :: ps) ((c, none) :: calls) o

namespace Calls

variable {max : Nat} {fails : Element → Error → Prop} {ps qs : List (Nat × Element)}
  {calls calls' : Record} {o : Option Error} {err : Error}

theorem append (h : Calls max fails ps calls none) (h' : Calls max fails qs calls' o) :
    Calls max fails (ps ++ qs) (calls ++ calls') o := by
  generalize hnone : (none : Option Error) = o' at h
  induction h with
  | done => exact h'
  | deep => cases hnone
  | failed => cases hnone
  | shown hle _ ih => exact .shown hle (ih hnone)

/-- What comes after the end does not matter. -/
theorem stop (h : Calls max fails ps calls (some err)) (qs : List (Nat × Element)) :
    Calls max fails (ps ++ qs) calls (some err) := by
  generalize hsome : some err = o' at h
  induction h with
  | done => cases hsome
  | deep hlt => exact .deep hlt
  | failed hle hfails => exact .failed hle hfails
  | shown hle _ ih => exact .shown hle (ih hsome)

/-- Without an error all was shown. -/
theorem eq_of_none (h : Calls max fails ps calls none) :
    (∀ p ∈ ps, p.1 ≤ max) ∧ calls = succeeded (ps.map Prod.snd) := by
  generalize hnone : (none : Option Error) = o' at h
  induction h with
  | done => exact ⟨by simp, rfl⟩
  | deep => cases hnone
  | failed => cases hnone
  | shown hle _ ih =>
      subst hnone
      obtain ⟨hall, rfl⟩ := ih rfl
      exact ⟨List.forall_mem_cons.mpr ⟨hle, hall⟩, rfl⟩

/-- An error is that something was too deep, or that of the last call. -/
theorem eq_of_some (h : Calls max fails ps calls (some err)) :
    (err = .tooDeep max ∧ (∃ p ∈ ps, max < p.1) ∧ calls = succeeded (within max ps)) ∨
    ∃ shown d rest, within max ps = shown ++ d :: rest ∧
      calls = succeeded shown ++ [(d, some err)] ∧ fails d err := by
  generalize hsome : some err = o' at h
  induction h with
  | done => cases hsome
  | @deep level c ps hlt =>
      cases hsome
      rw [within_cons_of_lt hlt]
      exact .inl ⟨rfl, ⟨_, List.mem_cons_self, hlt⟩, rfl⟩
  | @failed level c ps err hle hfails =>
      cases hsome
      rw [within_cons_of_le hle]
      exact .inr ⟨[], c, within max ps, rfl, rfl, hfails⟩
  | @shown level c ps calls o hle _ ih =>
      rw [within_cons_of_le hle]
      rcases ih hsome with ⟨herr, ⟨p, hp, hlt⟩, rfl⟩ | ⟨shown, d, rest, hsplit, rfl, hfails⟩
      · exact .inl ⟨herr, ⟨p, List.mem_cons_of_mem _ hp, hlt⟩, rfl⟩
      · exact .inr ⟨c :: shown, d, rest, by rw [hsplit]; rfl, rfl, hfails⟩

end Calls

/-! ### Walks -/

section Walks

variable {v : View} {s s' s₀ : Schema} {e c : Element} {cs ds : List Element} {n level : Nat}
  {σ α : Type} {visitor : Visitor v.blueprint σ} {t t' t'' : Schema × σ × Record}
  {seen : Record} {o : Option Error}

/-- After `s₀` a row of elements is there, and the children of each of them can be got, and of those
below it, `n` levels down. -/
structure Ready (v : View) (n : Nat) (s₀ s : Schema) (row : List Element) : Prop where
  evolves : Evolves v.blueprint s₀ s
  stands : ∀ c ∈ row, v.Stands s c
  listable : ∀ c ∈ row, v.Listable n c s

theorem Ready.of_subset (h : v.Ready n s₀ s cs) (hsub : ds ⊆ cs) : v.Ready n s₀ s ds where
  evolves := h.evolves
  stands c hc := h.stands c (hsub hc)
  listable c hc := h.listable c (hsub hc)

theorem Ready.later (h : v.Ready n s₀ s cs) (hlater : Evolves v.blueprint s s') :
    v.Ready n s₀ s' cs where
  evolves := h.evolves.trans hlater
  stands c hc := (h.stands c hc).later hlater.extends_
  listable c hc := (h.listable c hc).later h.evolves.finished (h.stands c hc) hlater

theorem Ready.exists_lists (h : v.Ready n s₀ s cs) (level : Nat) :
    ∃ ps s', v.Lists (n + 1) level s cs ps s' ∧ Evolves v.blueprint s s' := by
  obtain ⟨ps, s', hps⟩ := exists_lists_row (fun hs hc h => h.exists_lists hs hc (level + 1))
    h.evolves.finished h.stands h.listable
  exact ⟨ps, s', hps, hps.evolves h.evolves.finished h.stands⟩

/-- The calls of a recorded walk, which has come to the state `t`, are along a list of the elements
of a row and of those below them, which is complete with the schema `s'`. -/
structure Along (v : View) (visitor : Visitor v.blueprint σ) (s₀ : Schema) (n level : Nat)
    (s : Schema) (row : List Element) (seen : Record) (o : Option Error) (t : Schema × σ × Record)
    (s' : Schema) : Prop where
  later : Evolves v.blueprint t.1 s'
  calls : ∃ ps calls, v.Lists n level s row ps s' ∧ t.2.2 = seen ++ calls ∧
    Calls v.blueprint.config.maxDepth (visitor.Fails s₀) ps calls o

theorem Along.append {cs' : List Element} (h : v.Along visitor s₀ n level s cs seen none t t.1)
    (h' : v.Along visitor s₀ n level t.1 cs' t.2.2 o t' s') :
    v.Along visitor s₀ n level s (cs ++ cs') seen o t' s' := by
  obtain ⟨ps, calls, hlists, hseen, hcalls⟩ := h.calls
  obtain ⟨qs, calls', hlists', hseen', hcalls'⟩ := h'.calls
  refine ⟨h'.later, ps ++ qs, calls ++ calls', hlists.append hlists', ?_, hcalls.append hcalls'⟩
  rw [hseen', hseen, List.append_assoc]

/-- After a failure the rest of the row can still be listed. -/
theorem Along.stop {err : Error} {cs' : List Element}
    (h : v.Along visitor s₀ (n + 1) level s cs seen (some err) t s')
    (hrest : v.Ready n s₀ s' cs') :
    ∃ s'', v.Along visitor s₀ (n + 1) level s (cs ++ cs') seen (some err) t s'' := by
  obtain ⟨ps, calls, hlists, hseen, hcalls⟩ := h.calls
  obtain ⟨qs, s'', hlists', hevolves⟩ := hrest.exists_lists level
  exact ⟨s'', h.later.trans hevolves, ps ++ qs, calls, hlists.append hlists', hseen,
    hcalls.stop qs⟩

/-- How a step of a recorded walk ends that shows a row of elements and what is below them. -/
def EndsAlong (v : View) (visitor : Visitor v.blueprint σ) (s₀ : Schema) (n level : Nat)
    (s : Schema) (row : List Element) (seen : Record) (step : Visiting (σ × Record) Unit)
    (t : Schema × σ × Record) : Prop :=
  Ends step t (fun _ t' => v.Along visitor s₀ n level s row seen none t' t'.1)
    fun err t' => ∃ s', v.Along visitor s₀ n level s row seen (some err) t' s'

/-- If each element of a row is shown with what is below it then so is the row. -/
theorem endsAlong_forM {show' : Element → Visiting (σ × Record) Unit}
    (hshow : ∀ {c t}, v.Ready n s₀ t.1 [c] →
      v.EndsAlong visitor s₀ (n + 1) level t.1 [c] t.2.2 (show' c) t) :
    ∀ {cs t}, v.Ready n s₀ t.1 cs →
      v.EndsAlong visitor s₀ (n + 1) level t.1 cs t.2.2 (cs.forM show') t := by
  intro cs
  induction cs with
  | nil =>
      intro t h
      exact Ends.pure ⟨.refl h.evolves.finished, [], [], .done, (List.append_nil _).symm, .done⟩
  | cons c cs ih =>
      intro t h
      have hc : v.Ready n s₀ t.1 [c] := h.of_subset (by simp)
      have hcs : v.Ready n s₀ t.1 cs := h.of_subset (List.subset_cons_self c cs)
      have hlater : ∀ {o t' s'}, v.Along visitor s₀ (n + 1) level t.1 [c] t.2.2 o t' s' →
          Evolves v.blueprint t.1 s' := by
        rintro o t' s' ⟨-, ps, calls, hlists, -⟩
        exact hlists.evolves hc.evolves.finished hc.stands
      refine Ends.bind ((hshow hc).mono (fun _ _ h => h) fun err t' h => ?_) fun _ t' h => ?_
      · obtain ⟨s', h⟩ := h
        exact h.stop (hcs.later (hlater h))
      · refine (ih (hcs.later (hlater h))).mono (fun _ _ h' => h.append h') fun _ _ h' => ?_
        obtain ⟨s', h'⟩ := h'
        exact ⟨s', h.append h'⟩

/-- How a recorded walk below an element ends. -/
def EndsBelow (v : View) (visitor : Visitor v.blueprint σ) (s₀ : Schema) (n level : Nat)
    (e : Element) (step : Visiting (σ × Record) Unit) (t : Schema × σ × Record) : Prop :=
  ∃ ds s₁, v.allChildren e t.1 = .ok ds s₁ ∧
    v.EndsAlong visitor s₀ n level s₁ ds t.2.2 step t

/-- An element is shown before what is below it. -/
theorem endsAlong_element {below : Visiting (σ × Record) Unit} (hc : v.Ready n s₀ t.1 [c])
    (hlevel : level ≤ v.blueprint.config.maxDepth)
    (hbelow : ∀ {t'}, v.Ready n s₀ t'.1 [c] → v.EndsBelow visitor s₀ n (level + 1) c below t') :
    v.EndsAlong visitor s₀ (n + 1) level t.1 [c] t.2.2
      (do recording visitor.act c; below) t := by
  have hlists : ∀ {s₁ s₂ s' ds ps}, Evolves v.blueprint t.1 s₁ → v.allChildren c s₁ = .ok ds s₂ →
      v.Lists n (level + 1) s₂ ds ps s' → v.Lists (n + 1) level t.1 [c] ((level, c) :: ps) s' := by
    intro s₁ s₂ s' ds ps hbefore hasked hdown
    have hstep := Lists.step hbefore hasked hdown .done
    rwa [List.append_nil] at hstep
  refine Ends.bind ((ends_recording_asks visitor hc.evolves.finished c).mono
    (fun _ _ h => h) fun err t' h => ?_) fun _ t' h => ?_
  · obtain ⟨hevolves, hseen, hfails⟩ := h
    have hc' := hc.later hevolves
    have hstands := hc'.stands c List.mem_cons_self
    obtain ⟨ds, s₁, ps, s₂, hds, hps⟩ :=
      (hc'.listable c List.mem_cons_self).exists_lists hevolves.finished hstands (level + 1)
    obtain ⟨hfirst, hstands⟩ := stands_of_allChildren hevolves.finished hstands hds
    exact ⟨s₂, hfirst.trans (hps.evolves hfirst.finished hstands), _, _, hlists hevolves hds hps,
      hseen, .failed hlevel ⟨_, _, hc.evolves, hfails⟩⟩
  · obtain ⟨hevolves, hseen⟩ := h
    obtain ⟨ds, s₁, hds, hends⟩ := hbelow (hc.later hevolves)
    have halong : ∀ {o t'' s'}, v.Along visitor s₀ n (level + 1) s₁ ds t'.2.2 o t'' s' →
        v.Along visitor s₀ (n + 1) level t.1 [c] t.2.2 o t'' s' := by
      rintro o t'' s' ⟨hlater, ps, calls, hps, hseen', hcalls⟩
      refine ⟨hlater, _, (c, none) :: calls, hlists hevolves hds hps, ?_, .shown hlevel hcalls⟩
      rw [hseen', hseen, List.append_assoc]
      rfl
    exact hends.mono (fun _ _ h => halong h) fun _ _ h => h.imp fun _ h => halong h

/-- A request of which the answer is known. -/
theorem ends_onSchema_bind {request : Deriving α} {a : α} {rest : α → Visiting (σ × Record) Unit}
    {Q : Unit → Schema × σ × Record → Prop} {E : Error → Schema × σ × Record → Prop}
    (hrequest : request t.1 = .ok a s') (h : Ends (rest a) (s', t.2) Q E) :
    Ends (Visiting.onSchema request >>= rest) t Q E := by
  refine Ends.bind (P := fun b t' => b = a ∧ t' = (s', t.2)) ?_ ?_
  · unfold Ends
    dsimp only [Visiting.onSchema]
    rw [hrequest]
    exact ⟨rfl, rfl⟩
  · rintro _ _ ⟨rfl, rfl⟩
    exact h

/-- The levels that a walk still has and those that it has passed are one more than allowed, so it
gives up at what is one level too deep. -/
theorem endsBelow_walk (n : Nat) : ∀ {level e t}, level + n = v.blueprint.config.maxDepth + 1 →
    v.Ready n s₀ t.1 [e] →
      v.EndsBelow visitor s₀ n level e (v.walk (recording visitor.act) n e) t := by
  induction n with
  | zero =>
      intro level e t hlevel h
      obtain ⟨ds, s₁, hds⟩ := h.listable e List.mem_cons_self
      refine ⟨ds, s₁, hds, ends_onSchema_bind hds ?_⟩
      obtain ⟨hevolves, -⟩ :=
        stands_of_allChildren h.evolves.finished (h.stands e List.mem_cons_self) hds
      have hseen : t.2.2 = t.2.2 ++ [] := (List.append_nil _).symm
      have hlists : v.Lists 0 level s₁ ds _ s₁ := lists_zero ds
      have hlater : Evolves v.blueprint s₁ s₁ := .refl hevolves.finished
      refine ends_lastLevel (fun hnone => ?_) fun hdeep => ?_
      · subst hnone
        exact ⟨hlater, _, [], hlists, hseen, .done⟩
      · obtain ⟨d, ds, rfl⟩ := List.exists_cons_of_ne_nil hdeep
        exact ⟨s₁, hlater, _, [], hlists, hseen, .deep (by omega)⟩
  | succ n ih =>
      intro level e t hlevel h
      obtain ⟨ds, s₁, hds, hbelow⟩ := h.listable e List.mem_cons_self
      refine ⟨ds, s₁, hds, ends_onSchema_bind hds ?_⟩
      obtain ⟨hevolves, hstands⟩ :=
        stands_of_allChildren h.evolves.finished (h.stands e List.mem_cons_self) hds
      have hready : v.Ready n s₀ s₁ ds := ⟨h.evolves.trans hevolves, hstands, hbelow⟩
      exact endsAlong_forM
        (fun hc => endsAlong_element hc (by omega) fun hc' => ih (by omega) hc') hready

end Walks

/-! ### Visits -/

/-- What is below an element, in pre-order, down to what a walk does not show any more. -/
def listing (v : View) (s : Schema) (e : Element) : List (Nat × Element) :=
  preorder (v.childrenIn s) v.blueprint.config.maxDepth 1 (v.childrenIn s e)

/-- What a visit goes along: the element itself, if it is asked for, and what is below it. -/
def itinerary (v : View) (s : Schema) (includeSelf : Bool) (e : Element) : List (Nat × Element) :=
  (if includeSelf then [(0, e)] else []) ++ v.listing s e

/-- With the schema `s'`, which comes after `s`, all that is listed below an element is got, and the
schema stays.  The nodes are known beforehand. -/
structure Settled (v : View) (nodes : List (Nat × NodeId)) (e : Element) (s s' : Schema) :
    Prop where
  evolves : Evolves v.blueprint s s'
  nodes : outline (v.listing s' e) = nodes
  levels : ∀ p ∈ v.listing s' e, 1 ≤ p.1 ∧ p.1 ≤ v.blueprint.config.maxDepth + 1
  children : v.allChildren e s' = .ok (v.childrenIn s' e) s'
  below : ∀ p ∈ v.listing s' e, p.1 ≤ v.blueprint.config.maxDepth →
    v.allChildren p.2 s' = .ok (v.childrenIn s' p.2) s'

/-- How a visit of an element ends, from the schema `s` on, if `s'` is the later schema that it is
listed with: all was shown, or what comes before the first that is too deep, or else the last call
of the visitor failed. -/
def EndsInOrder {σ : Type} (v : View) (visitor : Visitor v.blueprint σ) (includeSelf : Bool)
    (e : Element) (s : Schema) (x : σ) (s' : Schema) : Prop :=
  Ends (v.visit (recording visitor.act) includeSelf e) (s, x, [])
    (fun _ t => Evolves v.blueprint t.1 s' ∧
      (∀ p ∈ v.listing s' e, p.1 ≤ v.blueprint.config.maxDepth) ∧
      t.2.2 = succeeded ((v.itinerary s' includeSelf e).map Prod.snd))
    fun err t => Evolves v.blueprint t.1 s' ∧
      ((err = .tooDeep v.blueprint.config.maxDepth ∧
          (∃ p ∈ v.listing s' e, v.blueprint.config.maxDepth < p.1) ∧
          t.2.2 = succeeded (within v.blueprint.config.maxDepth (v.itinerary s' includeSelf e))) ∨
        ∃ shown d rest, within v.blueprint.config.maxDepth (v.itinerary s' includeSelf e) =
            shown ++ d :: rest ∧
          t.2.2 = succeeded shown ++ [(d, some err)] ∧ visitor.Fails s d err)

/-- A visit of an element, from the schema `s` on, goes along what is listed with `s'`. -/
structure ShowsInOrder {σ : Type} (v : View) (visitor : Visitor v.blueprint σ)
    (includeSelf : Bool) (e : Element) (s : Schema) (x : σ) (s' : Schema) : Prop where
  /-- If nothing is too deep then all is shown. -/
  all : visitor.Unfailing s → (∀ p ∈ v.listing s' e, p.1 ≤ v.blueprint.config.maxDepth) →
    ∃ t x', v.visit (recording visitor.act) includeSelf e (s, x, []) =
      .ok () (t, x', succeeded ((v.itinerary s' includeSelf e).map Prod.snd))
  /-- If something is too deep then what comes before the first such element is shown. -/
  deep : visitor.Unfailing s → (∃ p ∈ v.listing s' e, v.blueprint.config.maxDepth < p.1) →
    ∃ t x', v.visit (recording visitor.act) includeSelf e (s, x, []) =
      .error (.tooDeep v.blueprint.config.maxDepth)
        (t, x', succeeded (within v.blueprint.config.maxDepth (v.itinerary s' includeSelf e)))
  /-- Any visitor is shown as much, unless one of its calls fails before. -/
  ends : v.EndsInOrder visitor includeSelf e s x s'

section Visits

variable {v : View} {s s' : Schema} {e : Element} {σ : Type} {visitor : Visitor v.blueprint σ}

theorem Lists.listing_eq {ps : List (Nat × Element)}
    (h : v.Lists (v.blueprint.config.maxDepth + 1) 0 s [e] ps s') (hs : Finished v.blueprint s)
    (he : v.Stands s e) :
    ps = (0, e) :: v.listing s' e ∧ v.Settled (outline (v.listing s' e)) e s s' := by
  have hrow : ∀ c ∈ [e], v.Stands s c := by simpa using he
  have hevolves := h.evolves hs hrow
  obtain ⟨horder, hasked⟩ := h.preorder_eq hs hrow (.refl hevolves.finished)
  have hps : ps = (0, e) :: v.listing s' e := by
    rw [horder, preorder_cons, preorder_nil, List.append_nil]
    rfl
  rw [hps] at hasked
  refine ⟨hps, hevolves, rfl, fun p hp => ?_, hasked (0, e) List.mem_cons_self (by simp),
    fun p hp hle => hasked p (List.mem_cons_of_mem _ hp) (by omega)⟩
  have hlevel := level_of_mem_preorder hp
  omega

/-- The calls of a recorded visit, which has come to the state `t`, are along the itinerary that
there is with the schema `s'`. -/
structure Follows (v : View) (visitor : Visitor v.blueprint σ) (includeSelf : Bool) (e : Element)
    (s : Schema) (o : Option Error) (t : Schema × σ × Record) (s' : Schema) : Prop where
  later : Evolves v.blueprint t.1 s'
  lists : v.Lists (v.blueprint.config.maxDepth + 1) 0 s [e] ((0, e) :: v.listing s' e) s'
  calls : Calls v.blueprint.config.maxDepth (visitor.Fails s) (v.itinerary s' includeSelf e) t.2.2 o

theorem ends_visit_follows (visitor : Visitor v.blueprint σ)
    (h : v.Ready v.blueprint.config.maxDepth s s [e]) (includeSelf : Bool) (x : σ) :
    Ends (v.visit (recording visitor.act) includeSelf e) (s, x, [])
      (fun _ t => v.Follows visitor includeSelf e s none t t.1)
      fun err t => ∃ s', v.Follows visitor includeSelf e s (some err) t s' := by
  have hfinished := h.evolves.finished
  have he := h.stands e List.mem_cons_self
  have hwalk : ∀ {t : Schema × σ × Record}, v.Ready v.blueprint.config.maxDepth s t.1 [e] →
      v.EndsBelow visitor s v.blueprint.config.maxDepth 1 e
        (v.walk (recording visitor.act) v.blueprint.config.maxDepth e) t :=
    endsBelow_walk _ (Nat.add_comm _ _)
  cases includeSelf with
  | false =>
      obtain ⟨ds, s₁, hds, hends⟩ := hwalk (t := (s, x, [])) h
      have hfollows : ∀ {o t s'}, v.Along visitor s v.blueprint.config.maxDepth 1 s₁ ds [] o t s' →
          v.Follows visitor false e s o t s' := by
        rintro o t s' ⟨hlater, ps, calls, hps, hseen, hcalls⟩
        have hlists := Lists.step (.refl hfinished) hds hps .done
        rw [List.append_nil] at hlists
        obtain ⟨hlisting, -⟩ := hlists.listing_eq hfinished he
        obtain rfl := (List.cons.inj hlisting).2
        exact ⟨hlater, hlists, hseen ▸ hcalls⟩
      exact hends.mono (fun _ _ h => hfollows h) fun _ _ h => h.imp fun _ h => hfollows h
  | true =>
      have hends := endsAlong_element (t := (s, x, [])) h (Nat.zero_le _) hwalk
      have hfollows : ∀ {o t s'},
          v.Along visitor s (v.blueprint.config.maxDepth + 1) 0 s [e] [] o t s' →
          v.Follows visitor true e s o t s' := by
        rintro o t s' ⟨hlater, ps, calls, hps, hseen, hcalls⟩
        obtain ⟨rfl, -⟩ := hps.listing_eq hfinished he
        exact ⟨hlater, hps, hseen ▸ hcalls⟩
      exact hends.mono (fun _ _ h => hfollows h) fun _ _ h => h.imp fun _ h => hfollows h

/-- The element itself is not too deep. -/
theorem mem_listing_of_lt {includeSelf : Bool} {p : Nat × Element}
    (hp : p ∈ v.itinerary s includeSelf e) (hlt : v.blueprint.config.maxDepth < p.1) :
    p ∈ v.listing s e := by
  rcases List.mem_append.mp hp with hp | hp
  · cases includeSelf with
    | false => cases hp
    | true =>
        rw [List.mem_singleton.mp hp] at hlt
        exact absurd hlt (Nat.not_lt_zero _)
  · exact hp

theorem exists_endsInOrder (visitor : Visitor v.blueprint σ)
    (h : v.Ready v.blueprint.config.maxDepth s s [e]) (includeSelf : Bool) (x : σ) :
    ∃ s', v.Lists (v.blueprint.config.maxDepth + 1) 0 s [e] ((0, e) :: v.listing s' e) s' ∧
      v.EndsInOrder visitor includeSelf e s x s' := by
  have hends := ends_visit_follows visitor h includeSelf x
  unfold EndsInOrder Ends
  cases hrun : v.visit (recording visitor.act) includeSelf e (s, x, []) with
  | ok u t =>
      obtain ⟨hlater, hlists, hcalls⟩ := hends.of_ok hrun
      obtain ⟨hall, hseen⟩ := hcalls.eq_of_none
      exact ⟨t.1, hlists, hlater, fun p hp => hall p (List.mem_append_right _ hp), hseen⟩
  | error err t =>
      obtain ⟨s', hlater, hlists, hcalls⟩ := hends.of_error hrun
      refine ⟨s', hlists, hlater, ?_⟩
      rcases hcalls.eq_of_some with ⟨herr, ⟨p, hp, hlt⟩, hseen⟩ | hfailed
      · exact .inl ⟨herr, ⟨p, mem_listing_of_lt hp hlt, hlt⟩, hseen⟩
      · exact .inr hfailed

/-- If the visitor does not fail then how the visit ends is known from the list. -/
theorem EndsInOrder.showsInOrder {includeSelf : Bool} {x : σ}
    (h : v.EndsInOrder visitor includeSelf e s x s') :
    v.ShowsInOrder visitor includeSelf e s x s' := by
  have hends := h
  unfold EndsInOrder Ends at h
  cases hrun : v.visit (recording visitor.act) includeSelf e (s, x, []) with
  | ok u t =>
      rw [hrun] at h
      obtain ⟨-, hall, hseen⟩ := h
      refine ⟨fun _ _ => ⟨t.1, t.2.1, by rw [hrun, ← hseen]⟩, fun _ hdeep => ?_, hends⟩
      obtain ⟨p, hp, hlt⟩ := hdeep
      exact absurd (hall p hp) (Nat.not_le.mpr hlt)
  | error err t =>
      rw [hrun] at h
      rcases h with ⟨-, ⟨rfl, hdeep, hseen⟩ | ⟨shown, d, rest, -, -, hfails⟩⟩
      · refine ⟨fun _ hall => ?_, fun _ _ => ⟨t.1, t.2.1, by rw [hrun, ← hseen]⟩, hends⟩
        obtain ⟨p, hp, hlt⟩ := hdeep
        exact absurd (hall p hp) (Nat.not_le.mpr hlt)
      · exact ⟨fun hok => absurd hfails (hok.not_fails d err),
          fun hok => absurd hfails (hok.not_fails d err), hends⟩

end Visits

/-! ### The end of the record -/

section Records

variable {v : View} {σ : Type} {visitor : Element → Visiting σ Unit} {t : Schema × σ × Record}

/-- A recorded visit has come to a state in which all calls succeeded. -/
def Unbroken (t : Schema × σ × Record) : Prop := ∃ shown, t.2.2 = succeeded shown

/-- A recorded visit has come to a state in which the last call failed, and those before it
succeeded. -/
def Broken (err : Error) (t : Schema × σ × Record) : Prop :=
  ∃ shown d, t.2.2 = succeeded shown ++ [(d, some err)]

theorem ends_recording_unbroken (h : Unbroken t) (d : Element) :
    Ends (recording visitor d) t (fun _ t' => Unbroken t') fun err t' => Broken err t' := by
  obtain ⟨shown, hshown⟩ := h
  refine (ends_recording visitor d).mono (fun _ t' h => ?_) fun err t' h => ?_
  · exact ⟨shown ++ [d], by rw [h.2, hshown, succeeded_concat]⟩
  · exact ⟨shown, d, by rw [h.2, hshown]⟩

/-- A request to the schema is not in the record, whether or not it succeeds. -/
theorem ends_onSchema_unbroken {α : Type} (h : Unbroken t) (request : Deriving α) :
    Ends (Visiting.onSchema request) t (fun _ t' => Unbroken t')
      fun err t' => Unbroken t' ∨ Broken err t' := by
  have hkept : ∀ {t' : Schema × σ × Record}, t'.2 = t.2 → Unbroken t' := by
    intro t' hsame
    rw [Unbroken, hsame]
    exact h
  exact (ends_onSchema Ends.any).mono (fun _ _ hend => hkept hend.2)
    fun _ _ hend => .inl (hkept hend.2)

theorem ends_walk_unbroken (levels : Nat) : ∀ {e} {t : Schema × σ × Record}, Unbroken t →
    Ends (v.walk (recording visitor) levels e) t (fun _ t' => Unbroken t')
      fun err t' => Unbroken t' ∨ Broken err t' := by
  induction levels with
  | zero =>
      intro e t h
      refine Ends.bind (ends_onSchema_unbroken h _) fun cs t' h' => ?_
      exact ends_lastLevel (fun _ => h') fun _ => .inl h'
  | succ levels ih =>
      intro e t h
      refine Ends.bind (ends_onSchema_unbroken h _) fun cs t' h' => ?_
      refine Ends.forM (I := fun _ t => Unbroken t) h' fun _ c t'' _ h'' => ?_
      exact Ends.bind ((ends_recording_unbroken h'' c).mono (fun _ _ h => h) fun _ _ h => .inr h)
        fun _ _ h => ih h

/-- However a visit ends, if one of the calls of the visitor failed then it was the last one, and
the visit ends with its error. -/
theorem ends_visit_unbroken (visitor : Element → Visiting σ Unit) (includeSelf : Bool)
    (e : Element) (s : Schema) (x : σ) :
    Ends (v.visit (recording visitor) includeSelf e) (s, x, []) (fun _ t => Unbroken t)
      fun err t => Unbroken t ∨ Broken err t := by
  have hstart : Unbroken ((s, x, []) : Schema × σ × Record) := ⟨[], rfl⟩
  cases includeSelf with
  | false => exact ends_walk_unbroken _ hstart
  | true =>
      exact Ends.bind ((ends_recording_unbroken hstart e).mono (fun _ _ h => h) fun _ _ h => .inr h)
        fun _ _ h => ends_walk_unbroken _ h

end Records

end View

/--
**A visit is the bounded pre-order.**  Let the children of an element and of all elements below it
be such that they can be got, as many levels down as the configuration allows, each after those of
its parent.  Then it is settled which nodes are below the element.  Whatever a visitor asks the
mapper for on its way, there is a later schema with which the children are got in any order, and the
visit shows what is listed with it: the element itself if it is asked for, each element before
those below it, and children in the order in which they are got.  A visitor that does not fail is
shown all of it if nothing is more levels down than allowed; otherwise the visit fails, and what was
shown is what comes before the first element that is one level too deep.  However a visit ends,
whatever element it begins with, a call of the visitor that fails is the last one, and its error is
that of the visit.
-/
theorem visit_preorder (v : View) (before : List Call) {e : Element}
    (he : v.Stands (v.blueprint.session before).schema e)
    (hlist : v.Listable v.blueprint.config.maxDepth e (v.blueprint.session before).schema) :
    (∃ nodes, ∀ (σ : Type) (visitor : Visitor v.blueprint σ) (includeSelf : Bool) (x : σ),
      ∃ s, v.Settled nodes e (v.blueprint.session before).schema s ∧
        v.ShowsInOrder visitor includeSelf e (v.blueprint.session before).schema x s) ∧
    ∀ (σ : Type) (visitor : Element → Visiting σ Unit) (includeSelf : Bool) (x : σ) (d : Element)
      (s : Schema),
      Ends (v.visit (View.recording visitor) includeSelf d) (s, x, []) (fun _ t => View.Unbroken t)
        fun err t => View.Unbroken t ∨ View.Broken err t := by
  refine ⟨?_, fun σ visitor includeSelf x d s => View.ends_visit_unbroken visitor includeSelf d s x⟩
  have hs := (Session.Holds.session v.blueprint before).finished
  have hready : v.Ready v.blueprint.config.maxDepth (v.blueprint.session before).schema
      (v.blueprint.session before).schema [e] :=
    ⟨.refl hs, by simpa using he, by simpa using hlist⟩
  obtain ⟨ps, s₀, hps, -⟩ := hready.exists_lists 0
  obtain ⟨rfl, -⟩ := hps.listing_eq hs he
  refine ⟨View.outline (v.listing s₀ e), fun σ visitor includeSelf x => ?_⟩
  obtain ⟨s, hlists, hends⟩ := View.exists_endsInOrder visitor hready includeSelf x
  have hsame := hlists.outline_eq hps hs hs hready.stands hready.stands rfl
  have hnodes : View.outline (v.listing s e) = View.outline (v.listing s₀ e) :=
    (List.cons.inj hsame).2
  exact ⟨s, hnodes ▸ (hlists.listing_eq hs he).2, hends.showsInOrder⟩

namespace View

/-- Brackets in brackets, of which a walk shows one level only, and a kind that no bracket needs. -/
def brackets : Blueprint where
  grammar := .ofParts "brackets" none
    [⟨"Nested", none, [.ofItem (.node "Nested") .single]⟩, ⟨"Empty", none, []⟩] []
  config := Config.standard.withMaxDepth 1
  ignoredTypes := []
  known := by decide +kernel

/-- Three brackets inside one another. -/
def bracketView : View :=
  ⟨brackets, 0, (Builder.fed [.start "Nested", .start "Nested", .start "Nested", .finish, .finish,
    .finish]).tree⟩

def outerBracket : Element := ⟨0, ⟨0⟩, ⟨0⟩, []⟩

def middleBracket : Element := ⟨0, ⟨1⟩, ⟨0⟩, [outerBracket.placement]⟩

def innerBracket : Element :=
  ⟨0, ⟨2⟩, ⟨0⟩, [middleBracket.placement, outerBracket.placement]⟩

/-- A visitor that asks for the entity of the other kind. -/
def curious : Visitor brackets Unit where
  act _ := Visiting.onSchema (brackets.entityId "Empty" >>= fun _ => pure ())
  asks _ := issues_onSchema ((Blueprint.issues_entityId "Empty").bind fun _ => .pure rfl)

/-- Of the brackets in the outer one the second is too deep, so only the first is shown, whether or
not another entity is asked for then. -/
theorem visit_preorder_brackets :
    let s := (brackets.session [.root bracketView.document]).schema
    bracketView.Stands s outerBracket ∧ bracketView.Listable 1 outerBracket s ∧
      s.idOf? "Empty" = none ∧ curious.Unfailing s ∧
      ∃ t, bracketView.visit (recording curious.act) false outerBracket (s, (), []) =
        .error (.tooDeep 1) (t, (), [(middleBracket, none)]) := by
  intro s
  have houter : bracketView.Stands s outerBracket :=
    ⟨(bracketView.tree.node? ⟨0⟩).get (by decide +kernel), by decide +kernel, by decide +kernel⟩
  have hmiddle : bracketView.Stands s middleBracket :=
    ⟨(bracketView.tree.node? ⟨1⟩).get (by decide +kernel), by decide +kernel, by decide +kernel⟩
  have hfirst : bracketView.allChildren outerBracket s = .ok [middleBracket] s := by decide +kernel
  have hsecond : bracketView.allChildren middleBracket s = .ok [innerBracket] s := by decide +kernel
  have hlist : bracketView.Listable 1 outerBracket s := by
    refine ⟨_, _, hfirst, fun d hd => ?_⟩
    rw [List.mem_singleton.mp hd]
    exact ⟨_, _, hsecond⟩
  have hs : Finished brackets s :=
    (Session.Holds.session brackets [.root bracketView.document]).finished
  have hempty : brackets.entityId "Empty" s =
      .ok ⟨1⟩ (brackets.session [.root bracketView.document, .entityId "Empty"]).schema := by
    decide +kernel
  have hok : curious.Unfailing s := by
    intro d y hevolves
    obtain ⟨id, t, hid, -⟩ :=
      hs.entityId_of_subset hevolves.finished hevolves.extends_.kinds_subset hempty
    refine ⟨(t, y.2), ?_⟩
    show Visiting.onSchema (brackets.entityId "Empty" >>= fun _ => pure ()) y = _
    dsimp only [Visiting.onSchema]
    rw [bind_pure_eq_ok hid fun _ => ()]
  refine ⟨houter, hlist, by decide +kernel, hok, ?_⟩
  obtain ⟨⟨nodes, hvisits⟩, -⟩ :=
    visit_preorder bracketView [.root bracketView.document] houter hlist
  obtain ⟨t, hsettled, hshows⟩ := hvisits Unit curious false ()
  have hlisting : bracketView.listing t outerBracket = [(1, middleBracket), (2, innerBracket)] := by
    rw [listing, childrenIn_eq (allChildren_again hs houter hfirst hsettled.evolves)]
    show (1, middleBracket) :: (preorder _ 0 2 (bracketView.childrenIn t middleBracket) ++ []) = _
    rw [childrenIn_eq (allChildren_again hs hmiddle hsecond hsettled.evolves)]
    rfl
  obtain ⟨s', ⟨⟩, hvisit⟩ := hshows.deep hok ⟨(2, innerBracket), by rw [hlisting]; simp, by decide⟩
  rw [itinerary, hlisting] at hvisit
  exact ⟨s', hvisit⟩

end View

end TreeSchema
