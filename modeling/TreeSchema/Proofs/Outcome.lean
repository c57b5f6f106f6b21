/-
How a computation ends.

Without a state, a computation that fails has a part that fails, and one that succeeds has
parts that all do.

With a state a computation may fail as well, and when it does the state it leaves behind
still matters: a failed derivation is taken back from exactly that state.  `Ends` speaks of
both ends at once.  Its rules follow the way a computation is put together, so a proof about
one goes through its text from top to bottom, and `Ends.forM` carries an invariant along
a list, indexed by the part of it that is done.
-/
import Mathlib.Data.List.Basic

namespace TreeSchema

variable {ε σ α β : Type}

/-! ### Computations without a state -/

theorem bind_eq_ok_iff {x : Except ε α} {f : α → Except ε β} {v : β} :
    x >>= f = .ok v ↔ ∃ a, x = .ok a ∧ f a = .ok v := by
  cases x <;> simp [bind, Except.bind]

theorem bind_eq_error_iff {x : Except ε α} {f : α → Except ε β} {e : ε} :
    x >>= f = .error e ↔ x = .error e ∨ ∃ a, x = .ok a ∧ f a = .error e := by
  cases x <;> simp [bind, Except.bind]

theorem map_eq_ok_iff {x : Except ε α} {f : α → β} {v : β} :
    f <$> x = .ok v ↔ ∃ a, x = .ok a ∧ f a = v := by
  cases x <;> simp [Functor.map, Except.map]

theorem map_eq_error_iff {x : Except ε α} {f : α → β} {e : ε} :
    f <$> x = .error e ↔ x = .error e := by
  cases x <;> simp [Functor.map, Except.map]

theorem toOption_eq_some_iff {x : Except ε α} {a : α} : x.toOption = some a ↔ x = .ok a := by
  cases x <;> simp [Except.toOption]

/-! ### Computations without a state, along a list -/

section Along

variable {l : List α} {e : ε}

theorem mapM_eq_ok {f : α → Except ε β} {l' : List β} (h : l.mapM f = .ok l') :
    List.Forall₂ (fun a c => f a = .ok c) l l' := by
  induction l generalizing l' with
  | nil =>
      cases h
      exact .nil
  | cons a l ih =>
      rw [List.mapM_cons] at h
      obtain ⟨c, hc, h⟩ := bind_eq_ok_iff.mp h
      obtain ⟨cs, hcs, h⟩ := bind_eq_ok_iff.mp h
      cases h
      exact .cons hc (ih hcs)

theorem mapM_eq_error {f : α → Except ε β} (h : l.mapM f = .error e) : ∃ a ∈ l, f a = .error e := by
  induction l with
  | nil => cases h
  | cons a l ih =>
      rw [List.mapM_cons] at h
      rcases bind_eq_error_iff.mp h with h | ⟨_, -, h⟩
      · exact ⟨a, List.mem_cons_self, h⟩
      · rcases bind_eq_error_iff.mp h with h | ⟨_, -, h⟩
        · obtain ⟨c, hc, h⟩ := ih h
          exact ⟨c, List.mem_cons_of_mem _ hc, h⟩
        · cases h

/-- What the steps give, one after the other. -/
theorem flatMapM_eq_ok {f : α → Except ε (List β)} {l' : List β} (h : l.flatMapM f = .ok l') :
    (∀ a ∈ l, ∃ cs, f a = .ok cs) ∧ l' = l.flatMap fun a => (f a).toOption.getD [] := by
  induction l generalizing l' with
  | nil =>
      cases h
      exact ⟨by simp, rfl⟩
  | cons a l ih =>
      rw [List.flatMapM_cons] at h
      obtain ⟨cs, hcs, h⟩ := bind_eq_ok_iff.mp h
      obtain ⟨ds, hds, h⟩ := bind_eq_ok_iff.mp h
      cases h
      obtain ⟨hall, rfl⟩ := ih hds
      refine ⟨?_, by rw [List.flatMap_cons, hcs]; rfl⟩
      intro x hx
      rcases List.mem_cons.mp hx with rfl | hx
      · exact ⟨cs, hcs⟩
      · exact hall x hx

theorem flatMapM_eq_error {f : α → Except ε (List β)} (h : l.flatMapM f = .error e) :
    ∃ a ∈ l, f a = .error e := by
  induction l with
  | nil => cases h
  | cons a l ih =>
      rw [List.flatMapM_cons] at h
      rcases bind_eq_error_iff.mp h with h | ⟨_, -, h⟩
      · exact ⟨a, List.mem_cons_self, h⟩
      · rcases bind_eq_error_iff.mp h with h | ⟨_, -, h⟩
        · obtain ⟨c, hc, h⟩ := ih h
          exact ⟨c, List.mem_cons_of_mem _ hc, h⟩
        · cases h

/-- Steps that leave some entries out are steps for the others. -/
theorem filterMapM_eq_mapM {f : α → Except ε (Option β)} {keeps : α → Bool} {g : α → Except ε β}
    (h : ∀ a ∈ l, f a = if keeps a then some <$> g a else .ok none) :
    l.filterMapM f = (l.filter keeps).mapM g := by
  induction l with
  | nil => rfl
  | cons a l ih =>
      have hrest := ih fun c hc => h c (List.mem_cons_of_mem _ hc)
      rw [List.filterMapM_cons, h a List.mem_cons_self, hrest]
      cases hk : keeps a with
      | false =>
          rw [List.filter_cons_of_neg (by rw [hk]; simp)]
          rfl
      | true =>
          rw [List.filter_cons_of_pos hk, List.mapM_cons]
          cases g a <;> rfl

theorem filterAuxM_eq_ok {test : α → Except ε Bool} {l' : List α} (acc : List α)
    (h : l.filterAuxM test acc = .ok l') :
    ∃ kept : List α, l' = kept.reverse ++ acc ∧ kept.Sublist l ∧ ∀ a ∈ kept, test a = .ok true := by
  induction l generalizing acc with
  | nil =>
      cases h
      exact ⟨[], rfl, .slnil, by simp⟩
  | cons x l ih =>
      obtain ⟨keep, hx, h⟩ := bind_eq_ok_iff.mp h
      obtain ⟨kept, rfl, hkept, hpassed⟩ := ih _ h
      cases keep with
      | false => exact ⟨kept, rfl, hkept.cons x, hpassed⟩
      | true =>
          refine ⟨x :: kept, by simp, hkept.cons_cons x, ?_⟩
          exact List.forall_mem_cons.mpr ⟨hx, hpassed⟩

theorem filterAuxM_eq_error {test : α → Except ε Bool} (acc : List α)
    (h : l.filterAuxM test acc = .error e) : ∃ a ∈ l, test a = .error e := by
  induction l generalizing acc with
  | nil => cases h
  | cons x l ih =>
      rcases bind_eq_error_iff.mp h with hx | ⟨keep, -, h⟩
      · exact ⟨x, List.mem_cons_self, hx⟩
      · obtain ⟨a, ha, ht⟩ := ih _ h
        exact ⟨a, List.mem_cons_of_mem _ ha, ht⟩

/-- Where a test never fails, filtering is filtering. -/
theorem filterM_eq_ok {test : α → Except ε Bool} {p : α → Bool}
    (h : ∀ a ∈ l, test a = .ok (p a)) : l.filterM test = .ok (l.filter p) := by
  have haux : ∀ (l acc : List α), (∀ a ∈ l, test a = .ok (p a)) →
      l.filterAuxM test acc = .ok ((l.filter p).reverse ++ acc) := by
    intro l
    induction l with
    | nil => exact fun acc _ => rfl
    | cons a l ih =>
        intro acc h
        have hrest := ih (bif p a then a :: acc else acc) fun x hx => h x (by simp [hx])
        rw [List.filterAuxM, h a (by simp)]
        refine hrest.trans ?_
        cases hp : p a <;> simp [hp]
  rw [List.filterM, haux l [] h]
  show Except.ok _ = _
  rw [List.append_nil, List.reverse_reverse]

/-- What is left is in its order, and it passed the test. -/
theorem filterM_passed {test : α → Except ε Bool} {l' : List α} (h : l.filterM test = .ok l') :
    l'.Sublist l ∧ ∀ a ∈ l', test a = .ok true := by
  obtain ⟨reversed, hreversed, h⟩ := bind_eq_ok_iff.mp h
  cases h
  obtain ⟨kept, rfl, hkept, hpassed⟩ := filterAuxM_eq_ok [] hreversed
  rw [List.append_nil, List.reverse_reverse]
  exact ⟨hkept, hpassed⟩

theorem filterAuxM_tested {test : α → Except ε Bool} {l' : List α} (acc : List α)
    (h : l.filterAuxM test acc = .ok l') : ∀ a ∈ l, ∃ keep, test a = .ok keep := by
  induction l generalizing acc with
  | nil => simp
  | cons x l ih =>
      obtain ⟨keep, hx, h⟩ := bind_eq_ok_iff.mp h
      exact List.forall_mem_cons.mpr ⟨⟨keep, hx⟩, ih _ h⟩

/-- Filtering that succeeds is filtering, by what the test says where it does not fail. -/
theorem filterM_eq_filter {test : α → Except ε Bool} {p : α → Bool} {l' : List α}
    (h : l.filterM test = .ok l') (hp : ∀ a ∈ l, ∀ keep, test a = .ok keep → keep = p a) :
    l' = l.filter p := by
  obtain ⟨reversed, hreversed, -⟩ := bind_eq_ok_iff.mp h
  have hall : ∀ a ∈ l, test a = .ok (p a) := by
    intro a ha
    obtain ⟨keep, hkeep⟩ := filterAuxM_tested [] hreversed a ha
    rw [hkeep, hp a ha keep hkeep]
  exact Except.ok.inj (h.symm.trans (filterM_eq_ok hall))

/-- If filtering fails then the test did. -/
theorem filterM_failed {test : α → Except ε Bool} (h : l.filterM test = .error e) :
    ∃ a ∈ l, test a = .error e := by
  rcases bind_eq_error_iff.mp h with h | ⟨_, -, h⟩
  · exact filterAuxM_eq_error [] h
  · cases h

theorem foldlM_invariant {f : β → α → Option β} {b b' : β} {I : β → Prop} (hinit : I b)
    (hstep : ∀ b a b', a ∈ l → I b → f b a = some b' → I b') (h : l.foldlM f b = some b') :
    I b' := by
  induction l generalizing b with
  | nil =>
      cases h
      exact hinit
  | cons a l ih =>
      rw [List.foldlM_cons] at h
      obtain ⟨b₁, ha, h⟩ := Option.bind_eq_some_iff.mp h
      have hrest : ∀ b c b', c ∈ l → I b → f b c = some b' → I b' :=
        fun b c b' hc => hstep b c b' (List.mem_cons_of_mem _ hc)
      exact ih (hstep b a b₁ List.mem_cons_self hinit ha) hrest h

/-- What can be done before each step can be done once before all of them. -/
theorem foldlM_map {f : β → α → Option β} {g : β → β} {b b' : β}
    (hstep : ∀ b a b', f b a = some b' → f (g b) a = some (g b')) (h : l.foldlM f b = some b') :
    l.foldlM f (g b) = some (g b') := by
  induction l generalizing b with
  | nil =>
      cases h
      rfl
  | cons a l ih =>
      rw [List.foldlM_cons] at h ⊢
      obtain ⟨b₁, ha, h⟩ := Option.bind_eq_some_iff.mp h
      exact Option.bind_eq_some_iff.mpr ⟨g b₁, hstep b a b₁ ha, ih h⟩

end Along

/-! ### Computations with a state -/

instance decidableEqResult [DecidableEq ε] [DecidableEq σ] [DecidableEq α] :
    DecidableEq (EStateM.Result ε σ α)
  | .ok a s, .ok a' s' => decidable_of_iff (a = a' ∧ s = s') (by simp)
  | .error e s, .error e' s' => decidable_of_iff (e = e' ∧ s = s') (by simp)
  | .ok .., .error .. => .isFalse nofun
  | .error .., .ok .. => .isFalse nofun

/-- Steps that give an entry or none are steps that give a list of at most one. -/
theorem filterMapM_eq_flatMapM (g : α → EStateM ε σ (Option β)) (l : List α) :
    l.filterMapM g = l.flatMapM fun a => Option.toList <$> g a := by
  induction l with
  | nil => rfl
  | cons a l ih =>
      rw [List.filterMapM_cons, List.flatMapM_cons, ih, bind_map_left]
      congr 1
      funext x
      cases x <;> simp

section Runs

variable {s s' : σ}

theorem run_bind_eq_ok_iff {x : EStateM ε σ α} {f : α → EStateM ε σ β} {c : β} :
    (x >>= f) s = .ok c s' ↔ ∃ a s₁, x s = .ok a s₁ ∧ f a s₁ = .ok c s' := by
  show EStateM.bind x f s = _ ↔ _
  unfold EStateM.bind
  cases x s <;> simp

theorem run_bind_eq_error_iff {x : EStateM ε σ α} {f : α → EStateM ε σ β} {e : ε} :
    (x >>= f) s = .error e s' ↔
      x s = .error e s' ∨ ∃ a s₁, x s = .ok a s₁ ∧ f a s₁ = .error e s' := by
  show EStateM.bind x f s = _ ↔ _
  unfold EStateM.bind
  cases x s <;> simp

theorem run_lift_bind_eq_ok_iff {x : Except ε α} {f : α → EStateM ε σ β} {c : β} :
    (liftExcept x >>= f) s = .ok c s' ↔ ∃ a, x = .ok a ∧ f a s = .ok c s' := by
  cases x with
  | ok a =>
      show f a s = _ ↔ _
      simp
  | error err =>
      show EStateM.Result.error err s = _ ↔ _
      simp

end Runs

/-- Run on `s`, a computation succeeds with `Q` or fails with `E`. -/
def Ends (x : EStateM ε σ α) (s : σ) (Q : α → σ → Prop) (E : ε → σ → Prop) : Prop :=
  match x s with
  | .ok a s' => Q a s'
  | .error e s' => E e s'

namespace Ends

variable {x : EStateM ε σ α} {f : α → EStateM ε σ β} {s s' : σ} {a : α} {e : ε}
  {P Q : α → σ → Prop} {E F : ε → σ → Prop} {R : β → σ → Prop}

/-! ### Reading an outcome off -/

theorem of_ok (h : Ends x s Q E) (hx : x s = .ok a s') : Q a s' := by
  simpa [Ends, hx] using h

theorem of_error (h : Ends x s Q E) (hx : x s = .error e s') : E e s' := by
  simpa [Ends, hx] using h

theorem mono (h : Ends x s P E) (hok : ∀ a s', P a s' → Q a s')
    (herr : ∀ e s', E e s' → F e s') : Ends x s Q F := by
  unfold Ends at *
  cases hx : x s with
  | ok a s' => rw [hx] at h; exact hok a s' h
  | error e s' => rw [hx] at h; exact herr e s' h

theorem imp (h : Ends x s P E) (hok : ∀ a s', P a s' → Q a s') : Ends x s Q E :=
  h.mono hok fun _ _ he => he

/-- Two things said of the same run hold together. -/
theorem and (h : Ends x s P E) (h' : Ends x s Q F) :
    Ends x s (fun a s' => P a s' ∧ Q a s') fun e s' => E e s' ∧ F e s' := by
  unfold Ends at *
  cases hx : x s with
  | ok a s' => rw [hx] at h h'; exact ⟨h, h'⟩
  | error e s' => rw [hx] at h h'; exact ⟨h, h'⟩

/-- There is always some outcome. -/
theorem any : Ends x s (fun _ _ => True) fun _ _ => True := by
  unfold Ends
  cases x s <;> trivial

/-! ### Steps -/

theorem pure (h : Q a s) : Ends (pure a) s Q E := h

theorem throw (h : E e s) : Ends (throw e) s Q E := h

theorem set {Q : PUnit → σ → Prop} (h : Q ⟨⟩ s') : Ends (set s') s Q E := h

theorem lift {x : Except ε α} (hok : ∀ a, x = .ok a → Q a s)
    (herr : ∀ e, x = .error e → E e s) : Ends (liftExcept x) s Q E := by
  cases x with
  | ok a => exact hok a rfl
  | error e => exact herr e rfl

theorem bind (hx : Ends x s P E) (hf : ∀ a s', P a s' → Ends (f a) s' R E) :
    Ends (x >>= f) s R E := by
  unfold Ends at *
  show match EStateM.bind x f s with
    | .ok b s' => R b s'
    | .error e s' => E e s'
  unfold EStateM.bind
  cases h : x s with
  | ok a s' => rw [h] at hx; exact hf a s' hx
  | error e s' => rw [h] at hx; exact hx

theorem map {g : α → β} (hx : Ends x s (fun a s' => R (g a) s') E) : Ends (g <$> x) s R E := by
  unfold Ends at *
  show match EStateM.map g x s with
    | .ok b s' => R b s'
    | .error e s' => E e s'
  unfold EStateM.map
  cases h : x s with
  | ok a s' => rw [h] at hx; exact hx
  | error e s' => rw [h] at hx; exact hx

/-- The state is read and stays. -/
theorem bind_get {f : σ → EStateM ε σ β} (h : Ends (f s) s R E) :
    Ends (MonadState.get >>= f) s R E := h

/-- A pure part either fails, and the state stays, or gives its value to the rest. -/
theorem bind_lift {x : Except ε α} (hok : ∀ a, x = .ok a → Ends (f a) s R E)
    (herr : ∀ e, x = .error e → E e s) : Ends (liftExcept x >>= f) s R E := by
  cases x with
  | ok a => exact hok a rfl
  | error e => exact herr e rfl

theorem bind_ok (h : Ends (f a) s R E) : Ends (liftExcept (.ok a : Except ε α) >>= f) s R E := h

theorem bind_error (h : E e s) : Ends (liftExcept (.error e : Except ε α) >>= f) s R E := h

/-! ### Along a list -/

/-- What holds of the part of a list that is done, and of the state, holds in the end if
each step keeps it. -/
theorem forM {g : β → EStateM ε σ PUnit} {l : List β} {I : List β → σ → Prop}
    (hinit : I [] s)
    (hstep : ∀ done b s', b ∈ l → I done s' → Ends (g b) s' (fun _ => I (done ++ [b])) E) :
    Ends (l.forM g) s (fun _ => I l) E := by
  suffices key : ∀ (rest done : List β) (s : σ), (∀ b ∈ rest, b ∈ l) → I done s →
      Ends (rest.forM g) s (fun _ => I (done ++ rest)) E from
    key l [] s (fun _ h => h) hinit
  intro rest
  induction rest with
  | nil =>
      intro done s _ h
      rw [List.append_nil]
      exact pure h
  | cons b rest ih =>
      intro done s hmem h
      refine bind (hstep done b s (hmem b (by simp)) h) fun _ s' h' => ?_
      have := ih (done ++ [b]) s' (fun c hc => hmem c (by simp [hc])) h'
      simpa using this

/-- What the steps give has in common what each of them gives, if that lasts while the others
run. -/
theorem flatMapM_lasting {g : β → EStateM ε σ (List α)} {l : List β} {I : σ → Prop}
    {p : α → σ → Prop} (hs : I s)
    (hstep : ∀ b ∈ l, ∀ s', I s' → Ends (g b) s'
      (fun xs s'' => I s'' ∧ (∀ a, p a s' → p a s'') ∧ ∀ a ∈ xs, p a s'') E) :
    Ends (l.flatMapM g) s (fun xs s' => I s' ∧ (∀ a, p a s → p a s') ∧ ∀ a ∈ xs, p a s') E := by
  induction l generalizing s with
  | nil => exact pure ⟨hs, fun _ ha => ha, by simp⟩
  | cons b l ih =>
      rw [List.flatMapM_cons]
      refine bind (hstep b (by simp) s hs) fun xs s₁ h₁ => ?_
      have hrest := ih h₁.1 fun c hc => hstep c (List.mem_cons_of_mem _ hc)
      refine bind hrest fun ys s₂ h₂ => pure ⟨h₂.1, fun a ha => h₂.2.1 a (h₁.2.1 a ha), ?_⟩
      intro a ha
      rcases List.mem_append.mp ha with ha | ha
      · exact h₂.2.1 a (h₁.2.2 a ha)
      · exact h₂.2.2 a ha

theorem filterMapM_lasting {g : β → EStateM ε σ (Option α)} {l : List β} {I : σ → Prop}
    {p : α → σ → Prop} (hs : I s)
    (hstep : ∀ b ∈ l, ∀ s', I s' → Ends (g b) s'
      (fun x s'' => I s'' ∧ (∀ a, p a s' → p a s'') ∧ ∀ a ∈ x, p a s'') E) :
    Ends (l.filterMapM g) s (fun xs s' => I s' ∧ (∀ a, p a s → p a s') ∧ ∀ a ∈ xs, p a s') E := by
  rw [filterMapM_eq_flatMapM]
  refine flatMapM_lasting hs fun b hb s' hs' => map ((hstep b hb s' hs').imp fun x s'' hx => ?_)
  exact ⟨hx.1, hx.2.1, fun a ha => hx.2.2 a (Option.mem_toList.mp ha)⟩

/-- Steps that leave the state alone leave it alone together. -/
theorem flatMapM {g : β → EStateM ε σ (List α)} {l : List β} {p : α → Prop}
    (hstep : ∀ b ∈ l, Ends (g b) s (fun xs s' => s' = s ∧ ∀ a ∈ xs, p a) E) :
    Ends (l.flatMapM g) s (fun xs s' => s' = s ∧ ∀ a ∈ xs, p a) E := by
  refine (flatMapM_lasting (I := (· = s)) (p := fun a _ => p a) rfl fun b hb s' hs' => ?_).imp
    fun xs s' hxs => ⟨hxs.1, hxs.2.2⟩
  subst hs'
  exact (hstep b hb).imp fun xs s' hxs => ⟨hxs.1, fun _ ha => ha, hxs.2⟩

theorem filterMapM {g : β → EStateM ε σ (Option α)} {l : List β} {p : α → Prop}
    (hstep : ∀ b ∈ l, Ends (g b) s (fun x s' => s' = s ∧ ∀ a ∈ x, p a) E) :
    Ends (l.filterMapM g) s (fun xs s' => s' = s ∧ ∀ a ∈ xs, p a) E := by
  rw [filterMapM_eq_flatMapM]
  refine flatMapM fun b hb => map ((hstep b hb).imp fun x s' hx => ?_)
  exact ⟨hx.1, fun a ha => hx.2 a (Option.mem_toList.mp ha)⟩

/-- What the steps give one by one, of which the result is what there is. -/
theorem filterMapM_forall₂ {g : β → EStateM ε σ (Option α)} {l : List β}
    {p : β → Option α → Prop} (hstep : ∀ b ∈ l, ∀ s, Ends (g b) s (fun x _ => p b x) E) :
    ∀ s, Ends (l.filterMapM g) s
      (fun xs _ => ∃ ys, List.Forall₂ p l ys ∧ xs = ys.filterMap id) E := by
  induction l with
  | nil => exact fun s => pure ⟨[], .nil, rfl⟩
  | cons b l ih =>
      intro s
      have hrest := ih fun c hc => hstep c (List.mem_cons_of_mem _ hc)
      rw [List.filterMapM_cons]
      refine bind (hstep b List.mem_cons_self s) fun x s' hx => ?_
      cases x with
      | none =>
          refine (hrest s').imp fun xs _ hxs => ?_
          obtain ⟨ys, hys, rfl⟩ := hxs
          exact ⟨none :: ys, .cons hx hys, rfl⟩
      | some a =>
          refine bind (hrest s') fun xs _ hxs => pure ?_
          obtain ⟨ys, hys, rfl⟩ := hxs
          exact ⟨some a :: ys, .cons hx hys, rfl⟩

/-! ### Computations that change nothing -/

/-- A computation that cannot fail and leaves the state alone gives a value. -/
theorem exists_ok {p : α → Prop} (h : Ends x s (fun a s' => s' = s ∧ p a) fun _ _ => False) :
    ∃ a, x s = .ok a s ∧ p a := by
  unfold Ends at h
  cases hx : x s with
  | error e s' => rw [hx] at h; exact h.elim
  | ok a s' =>
      rw [hx] at h
      obtain ⟨rfl, ha⟩ := h
      exact ⟨a, rfl, ha⟩

end Ends

end TreeSchema
