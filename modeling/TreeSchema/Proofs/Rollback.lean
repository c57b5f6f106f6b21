/-
A failed derivation leaves no trace.

A derivation may fail at any depth, with entities added, features given and parents made
abstract.  `Draft.undo` then cuts the schema off where the derivation found it and takes
back the marks it made.  That this is enough has a short reason: every single step of a
derivation leaves what `undo` would restore as it was.  An entity that is added lies past
the cut.  A feature goes to an entity added by the same derivation, so past the cut as
well.  And a mark is made only on an entity that was not abstract and is noted, so that
taking it back gives the entity as it was.

So `undo n` is an invariant of the run, and no step has to be inverted by itself: at the
start it restores the schema, and therefore at the end, wherever that is.
-/
import TreeSchema.Blueprint.Derivation
import TreeSchema.Proofs.Lookup
import TreeSchema.Proofs.Outcome

namespace TreeSchema

namespace Draft

variable {d : Draft} {n : Nat} {id : EntityId} {e : Entity}

/-- Taking `d'` back to `n` entities gives the same schema as taking `d` back. -/
def Recalls (n : Nat) (d d' : Draft) : Prop :=
  n ≤ d'.schema.size ∧ d'.undo n = d.undo n

theorem Recalls.refl (h : n ≤ d.schema.size) : d.Recalls n d := ⟨h, rfl⟩

theorem Recalls.trans {d₁ d₂ d₃ : Draft} (h : d₁.Recalls n d₂) (h' : d₂.Recalls n d₃) :
    d₁.Recalls n d₃ :=
  ⟨h'.1, h'.2.trans h.2⟩

/-! ### The three changes to a draft -/

theorem recalls_push (hn : n ≤ d.schema.size) (hid : n ≤ e.id.index)
    (hfresh : d.schema.idOf? e.kind = none) :
    d.Recalls n { d with schema := d.schema.push e } := by
  refine ⟨?_, ?_⟩
  · rw [Schema.size_push]
    omega
  · unfold undo
    rw [Schema.take_push_of_le hn hid hfresh]

theorem recalls_modify {f : Entity → Entity} (hn : n ≤ d.schema.size) (hid : n ≤ id.index) :
    d.Recalls n { d with schema := d.schema.modify id f } := by
  refine ⟨?_, ?_⟩
  · rw [Schema.size_modify]
    exact hn
  · unfold undo
    rw [Schema.take_modify_of_le hid]

theorem unmark_mark (h : e.isAbstract = false) : e.markAbstract.unmarkAbstract = e := by
  cases e
  cases h
  rfl

theorem recalls_mark (hn : n ≤ d.schema.size) (he : d.schema.entity? id = some e) :
    d.Recalls n (d.mark id e) := by
  unfold mark
  split
  · exact .refl hn
  · next habs =>
    refine ⟨by simpa using hn, ?_⟩
    unfold undo
    rw [List.foldl_cons, Schema.take_modify, Schema.modify_modify]
    -- the mark is the first to be taken back, and it gives the entity it was made on
    rw [Schema.modify_eq_self]
    intro e' he'
    rw [Schema.entity?_take] at he'
    split at he'
    · rw [he, Option.some.injEq] at he'
      subst he'
      exact unmark_mark (by simpa using habs)
    · simp at he'

end Draft

/-! ### Steps that can be taken back -/

/-- However a step ends, what is restored from its draft is what would have been before. -/
def Revertible {α : Type} (n : Nat) (x : Drafting α) : Prop :=
  ∀ d, n ≤ d.schema.size → Ends x d (fun _ => d.Recalls n) (fun _ => d.Recalls n)

namespace Revertible

variable {α β : Type} {n : Nat}

/-- A step from a draft that recalls `d` ends in one that recalls `d`. -/
theorem after {x : Drafting α} (hx : Revertible n x) {d d' : Draft} (h : d.Recalls n d') :
    Ends x d' (fun _ => d.Recalls n) (fun _ => d.Recalls n) :=
  (hx d' h.1).mono (fun _ _ h' => h.trans h') (fun _ _ h' => h.trans h')

theorem pure (a : α) : Revertible n (pure a) := fun _ hd => Ends.pure (.refl hd)

theorem throw (e : Error) : Revertible n (throw e : Drafting α) :=
  fun _ hd => Ends.throw (.refl hd)

theorem lift (x : Except Error α) : Revertible n (liftExcept x : Drafting α) :=
  fun _ hd => Ends.lift (fun _ _ => .refl hd) (fun _ _ => .refl hd)

theorem bind {x : Drafting α} {f : α → Drafting β} (hx : Revertible n x)
    (hf : ∀ a, Revertible n (f a)) : Revertible n (x >>= f) :=
  fun d hd => (hx d hd).bind fun a _ h => (hf a).after h

theorem forM {l : List β} {f : β → Drafting PUnit} (hf : ∀ b, Revertible n (f b)) :
    Revertible n (l.forM f) :=
  fun d hd => Ends.forM (I := fun _ => d.Recalls n) (.refl hd) fun _ b _ _ h => (hf b).after h

theorem markAbstract (id : EntityId) : Revertible n (Drafting.markAbstract id) := by
  intro d hd
  refine Ends.bind_get (Ends.bind_lift (fun e he => ?_) fun _ _ => .refl hd)
  exact Ends.set (Draft.recalls_mark hd (Schema.entity_eq_ok_iff.mp he))

theorem amend {id : EntityId} (hid : n ≤ id.index) (change : Entity → Except Error Entity) :
    Revertible n (Drafting.amend id change) := by
  intro d hd
  refine Ends.bind_get (Ends.bind_lift (fun e _ => ?_) fun _ _ => .refl hd)
  refine Ends.bind_lift (fun e' _ => ?_) fun _ _ => .refl hd
  exact Ends.set (Draft.recalls_modify hd hid)

end Revertible

/-! ### A derivation as a whole -/

namespace Blueprint

variable {b : Blueprint} {n : Nat} {derive : String → Drafting EntityId}

theorem revertible_deriveParent (hd : ∀ kind, Revertible n (derive kind)) (kind : String) :
    Revertible n (b.deriveParent derive kind) := by
  unfold deriveParent
  cases b.grammar.parent? kind with
  | none => exact .pure none
  | some parent =>
      exact (hd parent).bind fun id => (Revertible.markAbstract id).bind fun _ => .pure _

theorem revertible_contribute (hd : ∀ kind, Revertible n (derive kind)) {id : EntityId}
    (hid : n ≤ id.index) (kind : String) (s : Slot) :
    Revertible n (b.contribute derive id kind s) := by
  refine (Revertible.lift _).bind fun c => ?_
  cases c with
  | nothing => exact .pure _
  | property p => exact .amend hid _
  | relation name m target => exact (hd target).bind fun _ => .amend hid _

theorem revertible_contributeForced (hd : ∀ kind, Revertible n (derive kind)) {id : EntityId}
    (hid : n ≤ id.index) (k : Kind) (name : String) :
    Revertible n (b.contributeForced derive id k name) := by
  unfold contributeForced
  cases k.slot? name with
  | none => exact .throw _
  | some s => exact revertible_contribute hd hid k.name s

/-- The new entity lies past the first `n`, and so does everything that is added to it. -/
theorem recalls_deriveNew (hd : ∀ kind, Revertible n (derive kind)) (k : Kind)
    (parent : Option EntityId) {d : Draft} (hn : n ≤ d.schema.size)
    (hfresh : d.schema.idOf? k.name = none) :
    Ends (b.deriveNew derive k parent) d (fun _ => d.Recalls n) (fun _ => d.Recalls n) := by
  have hpush : d.Recalls n
      { d with schema := d.schema.push (b.outline ⟨d.schema.size⟩ k.name parent) } :=
    Draft.recalls_push hn hn hfresh
  have hrest : Revertible n (do
      k.exposedSlots.forM (b.contribute derive ⟨d.schema.size⟩ k.name)
      (b.config.rule k.name).forced.forM (b.contributeForced derive ⟨d.schema.size⟩ k)
      return (⟨d.schema.size⟩ : EntityId)) :=
    (Revertible.forM fun s => revertible_contribute hd hn k.name s).bind fun _ =>
      (Revertible.forM fun name => revertible_contributeForced hd hn k name).bind fun _ => .pure _
  exact hrest.after hpush

theorem revertible_deriveKind (hd : ∀ kind, Revertible n (derive kind)) (kind : String) :
    Revertible n (b.deriveKind derive kind) := by
  intro d hn
  refine Ends.bind_lift (fun k hk => ?_) fun _ _ => .refl hn
  refine (revertible_deriveParent hd kind d hn).bind fun parent d' h => Ends.bind_get ?_
  -- the kind is looked up once more: only if it is still missing is an entity added
  cases hid : d'.schema.idOf? kind with
  | some id => exact Ends.pure h
  | none =>
      rw [← Grammar.name_of_kind?_eq_some (Grammar.kind_eq_ok_iff.mp hk)] at hid
      exact (recalls_deriveNew hd k parent h.1 hid).mono (fun _ _ h' => h.trans h')
        fun _ _ h' => h.trans h'

theorem revertible_lookUpOr {make : Drafting EntityId} (hm : Revertible n make)
    (kind : String) : Revertible n (b.lookUpOr kind make) := by
  unfold lookUpOr
  cases b.config.exclusion? kind with
  | some why => exact .throw _
  | none =>
      intro d hn
      refine Ends.bind_get ?_
      cases d.schema.idOf? kind with
      | some id => exact Ends.pure (.refl hn)
      | none => exact hm d hn

/-- However deep a derivation goes and wherever it stops, it can be taken back. -/
theorem revertible_derive (n levels : Nat) : ∀ kind, Revertible n (b.derive levels kind) := by
  induction levels with
  | zero => exact fun kind => revertible_lookUpOr (.throw _) kind
  | succ levels ih => exact fun kind => revertible_lookUpOr (revertible_deriveKind ih kind) kind

/-- A failed request gives the schema back as it was, if it numbers its own entities only. -/
theorem eq_of_entityId_error {s s' : Schema} {kind : String} {e : Error}
    (hs : ∀ kind id, s.idOf? kind = some id → id.index < s.size)
    (h : b.entityId kind s = .error e s') : s' = s := by
  unfold entityId at h
  split at h
  · simp at h
  · next e' d hd =>
    have hrec : Draft.Recalls s.size ⟨s, []⟩ d :=
      (revertible_derive s.size _ kind ⟨s, []⟩ (Nat.le_refl _)).of_error hd
    simp only [EStateM.Result.error.injEq] at h
    calc s' = d.undo s.size := h.2.symm
      _ = Draft.undo ⟨s, []⟩ s.size := hrec.2
      _ = s.take s.size := rfl
      _ = s := Schema.take_size hs

end Blueprint

end TreeSchema
