/-
What is below an element, in pre-order.

A walk asks for the children of an element, shows the first of them, goes on below that one, and
comes back for the next.  In between the schema grows, by what the walk asks for and by what its
visitor asks for.  But whatever was asked before, the children of an element are the same nodes, and
once they were got they are got again.  So a row of elements makes a list in which each is followed
by what is below it, and the elements of the list become known one by one.

Which nodes are listed does not depend on the other requests.  Nor does it depend on the order of
the requests that the whole list can be got: it is enough that the children of each element can be
got after those of its parent.  With the schema that there is in the end, the list is the pre-order
of the children as they are got again.
-/
import TreeSchema.Proofs.Repeats

namespace TreeSchema

/-- The elements of a row, each followed by what is below it, `n` levels down, with their levels. -/
def preorder (children : Element → List Element) : Nat → Nat → List Element → List (Nat × Element)
  | 0, level, row => row.map (level, ·)
  | n + 1, level, row =>
    row.flatMap fun c => (level, c) :: preorder children n (level + 1) (children c)

section Levels

variable {children : Element → List Element} {n level : Nat} {row : List Element}

@[simp] theorem preorder_nil : preorder children n level [] = [] := by
  cases n <;> rfl

theorem preorder_cons (c : Element) :
    preorder children (n + 1) level (c :: row) =
      (level, c) :: (preorder children n (level + 1) (children c) ++
        preorder children (n + 1) level row) := rfl

/-- No level is left out. -/
theorem level_of_mem_preorder {p : Nat × Element} (h : p ∈ preorder children n level row) :
    level ≤ p.1 ∧ p.1 ≤ level + n := by
  induction n generalizing level row with
  | zero =>
      obtain ⟨c, -, rfl⟩ := List.mem_map.mp h
      exact ⟨Nat.le_refl _, Nat.le_refl _⟩
  | succ n ih =>
      obtain ⟨c, -, hc⟩ := List.mem_flatMap.mp h
      rcases List.mem_cons.mp hc with rfl | hc
      · exact ⟨Nat.le_refl _, Nat.le_add_right _ _⟩
      · have hbounds := ih hc
        omega

end Levels

namespace View

variable {v : View} {s s' t : Schema} {e f c : Element} {cs ds : List Element} {n level : Nat}
  {ps : List (Nat × Element)}

/-! ### Asking for all that is below -/

/-- The children of an element and of all elements below it, `n` levels down, can be got, those of
each element after those of its parent. -/
def Listable (v : View) : Nat → Element → Schema → Prop
  | 0, e, s => ∃ ds s', v.allChildren e s = .ok ds s'
  | n + 1, e, s => ∃ ds s', v.allChildren e s = .ok ds s' ∧ ∀ d ∈ ds, v.Listable n d s'

/-- Asked one after the other in the order of the list, with any other requests in between, the
elements of a row and those below them have the elements of the list below them, `n` levels down. -/
inductive Lists (v : View) :
    Nat → Nat → Schema → List Element → List (Nat × Element) → Schema → Prop
  | done {n level : Nat} {s : Schema} : Lists v n level s [] [] s
  | last {level : Nat} {s s' : Schema} {c : Element} {cs : List Element} {ps : List (Nat × Element)}
      (on : Lists v 0 level s cs ps s') : Lists v 0 level s (c :: cs) ((level, c) :: ps) s'
  | step {n level : Nat} {s s₀ s₁ s₂ s' : Schema} {c : Element} {cs ds : List Element}
      {ps qs : List (Nat × Element)} (before : Evolves v.blueprint s s₀)
      (asked : v.allChildren c s₀ = .ok ds s₁)
      (down : Lists v n (level + 1) s₁ ds ps s₂) (on : Lists v (n + 1) level s₂ cs qs s') :
      Lists v (n + 1) level s (c :: cs) ((level, c) :: (ps ++ qs)) s'

/-- What can be listed can be listed as well if more kinds have entities. -/
theorem Listable.of_subset (h : v.Listable n e s) (hs : Finished v.blueprint s)
    (ht : Finished v.blueprint t) (hsub : s.kinds ⊆ t.kinds) (he : v.Stands s e)
    (hf : v.Stands t f) (hnode : f.node = e.node) : v.Listable n f t := by
  induction n generalizing s t e f with
  | zero =>
      obtain ⟨ds, s', hds⟩ := h
      obtain ⟨fs, t', hfs, -⟩ := allChildren_of_subset hs ht hsub he hf hnode hds
      exact ⟨fs, t', hfs⟩
  | succ n ih =>
      obtain ⟨ds, s', hds, hbelow⟩ := h
      obtain ⟨fs, t', hfs, hsub'⟩ := allChildren_of_subset hs ht hsub he hf hnode hds
      have hnodes := map_node_allChildren_eq hs ht he hf hnode hds hfs
      obtain ⟨hs', hstands⟩ := stands_of_allChildren hs he hds
      obtain ⟨ht', hstands'⟩ := stands_of_allChildren ht hf hfs
      refine ⟨fs, t', hfs, fun g hg => ?_⟩
      have hmem : g.node ∈ ds.map Element.node := hnodes ▸ List.mem_map_of_mem hg
      obtain ⟨d, hd, hsame⟩ := List.mem_map.mp hmem
      exact ih (hbelow d hd) hs'.finished ht'.finished hsub' (hstands d hd) (hstands' g hg)
        hsame.symm

theorem Listable.later (h : v.Listable n e s) (hs : Finished v.blueprint s) (he : v.Stands s e)
    (hevolves : Evolves v.blueprint s s') : v.Listable n e s' :=
  h.of_subset hs hevolves.finished hevolves.extends_.kinds_subset he
    (he.later hevolves.extends_) rfl

theorem lists_zero (cs : List Element) :
    v.Lists 0 level s cs (preorder (fun _ => []) 0 level cs) s := by
  induction cs with
  | nil => exact .done
  | cons c cs ih => exact .last ih

/-- The children that were got for an element after other requests stand for nodes. -/
theorem stands_of_asked {s₀ : Schema} (hc : v.Stands s c) (before : Evolves v.blueprint s s₀)
    (asked : v.allChildren c s₀ = .ok ds s') :
    Evolves v.blueprint s s' ∧ ∀ d ∈ ds, v.Stands s' d := by
  obtain ⟨hevolves, hds⟩ :=
    stands_of_allChildren before.finished (hc.later before.extends_) asked
  exact ⟨before.trans hevolves, hds⟩

theorem Lists.evolves (h : v.Lists n level s cs ps s') (hs : Finished v.blueprint s)
    (hcs : ∀ c ∈ cs, v.Stands s c) : Evolves v.blueprint s s' := by
  induction h with
  | done => exact .refl hs
  | last _ ih => exact ih hs fun d hd => hcs d (List.mem_cons_of_mem _ hd)
  | step before asked _ _ ihdown ihon =>
      obtain ⟨hfirst, hds⟩ := stands_of_asked (hcs _ List.mem_cons_self) before asked
      have hdown := hfirst.trans (ihdown hfirst.finished hds)
      refine hdown.trans (ihon hdown.finished fun d hd => ?_)
      exact (hcs d (List.mem_cons_of_mem _ hd)).later hdown.extends_

/-- A row of elements is listed if there is something to list below each of them. -/
theorem exists_lists_row
    (hdown : ∀ {s c}, Finished v.blueprint s → v.Stands s c → v.Listable n c s →
      ∃ ds s₁ ps s₂, v.allChildren c s = .ok ds s₁ ∧ v.Lists n (level + 1) s₁ ds ps s₂)
    (hs : Finished v.blueprint s) (hcs : ∀ c ∈ cs, v.Stands s c)
    (h : ∀ c ∈ cs, v.Listable n c s) : ∃ ps s', v.Lists (n + 1) level s cs ps s' := by
  induction cs generalizing s with
  | nil => exact ⟨[], s, .done⟩
  | cons c cs ih =>
      obtain ⟨hc, hcs⟩ := List.forall_mem_cons.mp hcs
      obtain ⟨hlist, hrest⟩ := List.forall_mem_cons.mp h
      obtain ⟨ds, s₁, ps, s₂, hds, hps⟩ := hdown hs hc hlist
      obtain ⟨hfirst, hstands⟩ := stands_of_allChildren hs hc hds
      have hevolves := hfirst.trans (hps.evolves hfirst.finished hstands)
      obtain ⟨qs, s', hqs⟩ := ih hevolves.finished
        (fun d hd => (hcs d hd).later hevolves.extends_)
        fun d hd => (hrest d hd).later hs (hcs d hd) hevolves
      exact ⟨(level, c) :: (ps ++ qs), s', .step (.refl hs) hds hps hqs⟩

/-- If the children of all elements below an element can be got, they are listed. -/
theorem Listable.exists_lists (h : v.Listable n e s) (hs : Finished v.blueprint s)
    (he : v.Stands s e) (level : Nat) :
    ∃ ds s₁ ps s₂, v.allChildren e s = .ok ds s₁ ∧ v.Lists n level s₁ ds ps s₂ := by
  induction n generalizing level s e with
  | zero =>
      obtain ⟨ds, s₁, hds⟩ := h
      exact ⟨ds, s₁, _, s₁, hds, lists_zero ds⟩
  | succ n ih =>
      obtain ⟨ds, s₁, hds, hbelow⟩ := h
      obtain ⟨hevolves, hstands⟩ := stands_of_allChildren hs he hds
      obtain ⟨ps, s₂, hps⟩ :=
        exists_lists_row (fun hs hc h => ih h hs hc _) hevolves.finished hstands hbelow
      exact ⟨ds, s₁, ps, s₂, hds, hps⟩

/-! ### The list is the pre-order -/

/-- The children of an element as they are got with a schema. -/
def childrenIn (v : View) (s : Schema) (e : Element) : List Element :=
  match v.allChildren e s with
  | .ok ds _ => ds
  | .error .. => []

theorem childrenIn_eq (h : v.allChildren e s = .ok ds s') : v.childrenIn s e = ds := by
  rw [childrenIn, h]

/-- At any later time the list is the pre-order of the children that are got then, and those of all
elements but the last ones can be got then. -/
theorem Lists.preorder_eq (h : v.Lists n level s cs ps s') (hs : Finished v.blueprint s)
    (hcs : ∀ c ∈ cs, v.Stands s c) (hlater : Evolves v.blueprint s' t) :
    ps = preorder (v.childrenIn t) n level cs ∧
      ∀ p ∈ ps, p.1 < level + n → v.allChildren p.2 t = .ok (v.childrenIn t p.2) t := by
  induction h with
  | done => exact ⟨preorder_nil.symm, by simp⟩
  | @last level s s' c cs ps _ ih =>
      obtain ⟨hrest, hasked⟩ := ih hs (fun d hd => hcs d (List.mem_cons_of_mem _ hd)) hlater
      refine ⟨by rw [hrest]; rfl, List.forall_mem_cons.mpr ⟨fun hlt => ?_, hasked⟩⟩
      exact absurd hlt (Nat.lt_irrefl _)
  | @step n level s s₀ s₁ s₂ s' c cs ds ps qs before asked down on ihdown ihon =>
      obtain ⟨hc, hcs⟩ := List.forall_mem_cons.mp hcs
      obtain ⟨hfirst, hds⟩ := stands_of_asked hc before asked
      have hdown := down.evolves hfirst.finished hds
      have hcs' : ∀ d ∈ cs, v.Stands s₂ d :=
        fun d hd => (hcs d hd).later (hfirst.trans hdown).extends_
      have hon := on.evolves hdown.finished hcs'
      have hagain : v.allChildren c t = .ok ds t :=
        allChildren_again before.finished (hc.later before.extends_) asked
          ((hdown.trans hon).trans hlater)
      have hchildren : v.childrenIn t c = ds := childrenIn_eq hagain
      obtain ⟨hbelow, haskedBelow⟩ := ihdown hfirst.finished hds (hon.trans hlater)
      obtain ⟨hrest, haskedRest⟩ := ihon hdown.finished hcs' hlater
      refine ⟨by rw [preorder_cons, hchildren, ← hbelow, ← hrest], ?_⟩
      intro p hp hlt
      rcases List.mem_cons.mp hp with rfl | hp
      · rw [hchildren]
        exact hagain
      rcases List.mem_append.mp hp with hp | hp
      · exact haskedBelow p hp (by omega)
      · exact haskedRest p hp hlt

/-- A level and a node for each element of a list. -/
def outline (ps : List (Nat × Element)) : List (Nat × NodeId) := ps.map fun p => (p.1, p.2.node)

theorem outline_append (ps qs : List (Nat × Element)) :
    outline (ps ++ qs) = outline ps ++ outline qs := List.map_append

/-- Whatever else is asked, the same nodes are listed. -/
theorem Lists.outline_eq {t' : Schema} {ds : List Element} {qs : List (Nat × Element)}
    (h : v.Lists n level s cs ps s') (h' : v.Lists n level t ds qs t') (hs : Finished v.blueprint s)
    (ht : Finished v.blueprint t) (hcs : ∀ c ∈ cs, v.Stands s c) (hds : ∀ d ∈ ds, v.Stands t d)
    (hnodes : cs.map Element.node = ds.map Element.node) : outline ps = outline qs := by
  induction h generalizing t t' ds qs with
  | done =>
      obtain rfl := List.map_eq_nil_iff.mp hnodes.symm
      cases h'
      rfl
  | @last level s s' c cs ps _ ih =>
      cases h' with
      | done => cases hnodes
      | @last _ _ _ d ds qs on' =>
          obtain ⟨hnode, hnodes⟩ := List.cons.inj hnodes
          have hrest := ih on' hs ht (fun c hc => hcs c (List.mem_cons_of_mem _ hc))
            (fun d hd => hds d (List.mem_cons_of_mem _ hd)) hnodes
          show (level, c.node) :: outline ps = (level, d.node) :: outline qs
          rw [hnode, hrest]
  | @step n level s s₀ s₁ s₂ s' c cs es ps ps' before asked down on ihdown ihon =>
      cases h' with
      | done => cases hnodes
      | @step _ _ _ t₀ t₁ t₂ _ d ds fs qs qs' before' asked' down' on' =>
          obtain ⟨hnode, hnodes⟩ := List.cons.inj hnodes
          obtain ⟨hc, hcs⟩ := List.forall_mem_cons.mp hcs
          obtain ⟨hd, hds⟩ := List.forall_mem_cons.mp hds
          have hsame := map_node_allChildren_eq before.finished before'.finished
            (hc.later before.extends_) (hd.later before'.extends_) hnode.symm asked asked'
          obtain ⟨hfirst, hes⟩ := stands_of_asked hc before asked
          obtain ⟨hfirst', hfs⟩ := stands_of_asked hd before' asked'
          have hbelow := ihdown down' hfirst.finished hfirst'.finished hes hfs hsame.symm
          have hdown := hfirst.trans (down.evolves hfirst.finished hes)
          have hdown' := hfirst'.trans (down'.evolves hfirst'.finished hfs)
          have hrest := ihon on' hdown.finished hdown'.finished
            (fun c hc => (hcs c hc).later hdown.extends_)
            (fun d hd => (hds d hd).later hdown'.extends_) hnodes
          show (level, c.node) :: outline (ps ++ ps') = (level, d.node) :: outline (qs ++ qs')
          rw [outline_append, outline_append, hnode, hbelow, hrest]

theorem Lists.append {cs' : List Element} {qs : List (Nat × Element)} {s'' : Schema}
    (h : v.Lists n level s cs ps s') (h' : v.Lists n level s' cs' qs s'') :
    v.Lists n level s (cs ++ cs') (ps ++ qs) s'' := by
  induction h with
  | done => exact h'
  | last _ ih => exact .last (ih h')
  | step before asked down _ _ ihon =>
      rw [List.cons_append, List.cons_append, List.append_assoc]
      exact .step before asked down (ihon h')

end View

end TreeSchema
