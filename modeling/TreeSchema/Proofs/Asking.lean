/-
Asking for what is listed.

An element lists features, and each of them has a getter: for its role, and for one value or many.
The getter looks the feature up again by its name.  If the two disagreed it would find nothing, a
feature of the other role or one of the other multiplicity, and fail for that.  They agree, as the
same entity resolves its names in the same way, whatever was derived in between.

What the getter does after the look-up may still fail: the tree does not have the shape that the
schema declares, or the entity of a child cannot be derived.  None of that looks a feature up, so
it fails for another reason (`Apt`, `AptRun`).  The rules for that follow the way a computation is
put together.
-/
import TreeSchema.Proofs.Gathering
import TreeSchema.Proofs.Hiding

namespace TreeSchema

/-- The feature that was asked for is not there, or it is not what it was asked for as. -/
def Error.isMisfit : Error → Bool
  | .noFeature .. | .wrongRole .. | .wrongMultiplicity .. => true
  | _ => false

/-! ### Computations that look no feature up -/

/-- If a computation fails then not for the feature that it asked for. -/
def Apt {α : Type} (x : Except Error α) : Prop := ∀ e, x = .error e → e.isMisfit = false

namespace Apt

variable {α β : Type} {x : Except Error α} {f : α → Except Error β} {l : List α}

theorem ok (a : α) : Apt (.ok a) := nofun

theorem error {e : Error} (h : e.isMisfit = false) : Apt (.error e : Except Error α) := by
  intro e' he'
  cases he'
  exact h

theorem bind (hx : Apt x) (hf : ∀ a, Apt (f a)) : Apt (x >>= f) := by
  intro e h
  rcases bind_eq_error_iff.mp h with h | ⟨a, -, h⟩
  · exact hx e h
  · exact hf a e h

theorem bind_ok {a : α} (h : Apt (f a)) : Apt (.ok a >>= f) := h

theorem map {g : α → β} (hx : Apt x) : Apt (g <$> x) :=
  fun e h => hx e (map_eq_error_iff.mp h)

theorem mapM (hf : ∀ a, Apt (f a)) : Apt (l.mapM f) := by
  intro e h
  obtain ⟨a, -, ha⟩ := mapM_eq_error h
  exact hf a e ha

theorem filterM {test : α → Except Error Bool} (h : ∀ a, Apt (test a)) : Apt (l.filterM test) := by
  intro e he
  obtain ⟨a, -, ha⟩ := filterM_failed he
  exact h a e ha

theorem anyM {test : α → Except Error Bool} (h : ∀ a, Apt (test a)) : Apt (l.anyM test) := by
  induction l with
  | nil => exact ok false
  | cons a l ih =>
      refine (h a).bind fun found => ?_
      cases found with
      | true => exact ok true
      | false => exact ih

/-- Where the tree is at fault, the feature is not. -/
theorem of_fault (h : ∀ e, x = .error e → e.fault ≠ .configuration) : Apt x := by
  intro e he
  have hfault := h e he
  cases e <;> first | rfl | exact absurd rfl hfault

end Apt

/-! ### Trees -/

namespace Tree

variable {t : Tree} {i : NodeId}

theorem apt_node : Apt (t.node i) := by
  unfold node
  split
  · exact .ok _
  · exact .error rfl

theorem apt_token {x : TokenId} : Apt (t.token x) := by
  unfold token
  split
  · exact .ok _
  · exact .error rfl

theorem apt_kind : Apt (t.kind i) := apt_node.map

theorem apt_optToken {x : Option TokenId} : Apt (t.optToken x) := by
  cases x with
  | none => exact .ok none
  | some x => exact apt_token.map

theorem apt_firstToken : Apt (t.firstToken i) := apt_node.bind fun _ => apt_optToken

theorem apt_lastToken : Apt (t.lastToken i) := apt_node.bind fun _ => apt_optToken

theorem apt_tokensBetween {start stop : TokenId} : Apt (t.tokensBetween start stop) := by
  unfold tokensBetween
  split
  · exact .ok _
  · split
    · exact .ok _
    · exact .error rfl

theorem apt_text : Apt (t.text i) := by
  refine apt_node.bind fun n => ?_
  split
  · exact apt_tokensBetween.bind fun _ => .ok _
  · exact .ok _

theorem apt_nodeSpan : Apt (t.nodeSpan i) := by
  refine apt_firstToken.bind fun first => ?_
  cases first with
  | none => exact .ok none
  | some first =>
      refine apt_lastToken.bind fun last => ?_
      cases last with
      | none => exact .ok _
      | some last => exact .ok _

theorem apt_nodeValue : Apt (t.nodeValue i) :=
  apt_firstToken.bind fun _ => apt_text.bind fun _ => apt_nodeSpan.bind fun _ => .ok _

theorem apt_childValue {c : Child} : Apt (t.childValue c) := by
  cases c with
  | token x => exact apt_token.bind fun _ => .ok _
  | node j => exact apt_nodeValue.bind fun _ => .ok _

theorem apt_hasTextWithin (levels : Nat) : ∀ i, Apt (t.hasTextWithin levels i) := by
  induction levels with
  | zero =>
      intro i
      exact apt_node.bind fun _ => .error rfl
  | succ levels ih =>
      intro i
      refine apt_node.bind fun n => Apt.anyM fun c => ?_
      cases c with
      | token x => exact apt_token.bind fun _ => .ok _
      | node c => exact ih c

theorem apt_endOf {first : Token} : Apt (t.endOf i first) := by
  refine apt_lastToken.bind fun last => ?_
  cases last with
  | some last => exact .ok _
  | none =>
      refine (apt_hasTextWithin _ i).bind fun text => ?_
      cases text with
      | true => exact apt_kind.bind fun _ => .error rfl
      | false => exact .ok _

theorem apt_positionOf {p : Position} : Apt (t.positionOf i p) := by
  refine apt_firstToken.bind fun first => ?_
  cases first with
  | none => exact apt_kind.bind fun _ => .error rfl
  | some first =>
      cases p with
      | startLine => exact .ok _
      | startColumn => exact .ok _
      | endLine => exact apt_endOf.bind fun _ => .ok _
      | endColumn => exact apt_endOf.bind fun _ => .ok _

end Tree

/-! ### Nodes and what they hold -/

namespace Blueprint

variable {b : Blueprint} {t : Tree} {i : NodeId}

theorem apt_elideFrom (steps : Nat) : ∀ i, Apt (b.elideFrom t steps i) := by
  have hstandIn : ∀ n, Apt (b.standIn t n) := by
    refine fun n => Apt.of_fault fun e he hfault => ?_
    rcases fault_of_standIn he with h | h <;> rw [h] at hfault <;> cases hfault
  induction steps with
  | zero =>
      intro i
      refine Tree.apt_node.bind fun n => ?_
      split
      · exact .ok i
      · exact .error rfl
  | succ steps ih =>
      intro i
      refine Tree.apt_node.bind fun n => ?_
      split
      · exact .ok i
      · exact (hstandIn n).bind fun j => ih j

theorem apt_kept? : Apt (b.kept? t i) :=
  (apt_elideFrom _ i).bind fun _ => Tree.apt_kind.bind fun _ => .ok _

theorem apt_fitting {n : Node} {name : String} {slot : Slot} : Apt (b.fitting t n name slot) := by
  unfold fitting
  split
  · refine Apt.filterM fun c => ?_
    cases c with
    | token x => exact .ok false
    | node j => exact Tree.apt_kind.bind fun _ => .ok _
  · split
    · refine Apt.filterM fun c => ?_
      cases c with
      | token x => exact Tree.apt_token.bind fun _ => .ok _
      | node j => exact .ok false
    · exact .error rfl

theorem apt_filling {feature : String} : Apt (b.filling t i feature) := by
  refine Tree.apt_node.bind fun n => ?_
  split
  · exact .error rfl
  · split
    · exact .ok _
    · split
      · exact apt_fitting.bind fun _ => .ok _
      · exact .ok _

/-! ### Contributions -/

theorem apt_kindOf {kind : String} : Apt (b.grammar.kind kind) := by
  unfold Grammar.kind
  split
  · exact .ok _
  · exact .error rfl

theorem apt_onlyTarget {k : Kind} : Apt (b.onlyTarget k) := by
  unfold onlyTarget
  repeat' split
  all_goals first | exact .ok _ | exact .error rfl

theorem apt_effectiveFrom (steps : Nat) :
    ∀ seen kind, Apt (b.effectiveFrom steps seen kind) := by
  induction steps with
  | zero =>
      intro seen kind
      unfold effectiveFrom
      split
      · exact .ok kind
      · split
        · exact .error rfl
        · exact .error rfl
  | succ steps ih =>
      intro seen kind
      unfold effectiveFrom
      split
      · exact .ok kind
      · split
        · exact .error rfl
        · exact apt_kindOf.bind fun _ => apt_onlyTarget.bind fun _ => ih _ _

theorem apt_contribution {kind : String} {slot : Slot} : Apt (b.contribution kind slot) := by
  unfold contribution
  split
  · exact .ok _
  · refine (apt_effectiveFrom _ _ _).bind fun effective => ?_
    repeat' split
    all_goals exact .ok _

end Blueprint

theorem Schema.apt_entity {s : Schema} {id : EntityId} : Apt (s.entity id) := by
  unfold entity
  split
  · exact .ok _
  · exact .error rfl

theorem Entity.apt_addProperty {e : Entity} {p : Property} : Apt (e.addProperty p) := by
  unfold addProperty
  split
  · exact .error rfl
  · exact .ok _

theorem Entity.apt_addRelation {e : Entity} {r : Relation} : Apt (e.addRelation r) := by
  unfold addRelation
  split
  · exact .error rfl
  · exact .ok _

/-! ### Computations with a state -/

/-- If a run fails then not for a feature that it asked for. -/
def AptRun {σ α : Type} (x : EStateM Error σ α) : Prop :=
  ∀ s, Ends x s (fun _ _ => True) fun e _ => e.isMisfit = false

namespace AptRun

variable {σ α β : Type} {x : EStateM Error σ α} {f : α → EStateM Error σ β}

theorem pure (a : α) : AptRun (pure a : EStateM Error σ α) := fun _ => Ends.pure trivial

theorem throw {e : Error} (h : e.isMisfit = false) : AptRun (throw e : EStateM Error σ α) :=
  fun _ => Ends.throw h

theorem lift {x : Except Error α} (h : Apt x) : AptRun (liftExcept x : EStateM Error σ α) :=
  fun _ => Ends.lift (fun _ _ => trivial) h

theorem bind (hx : AptRun x) (hf : ∀ a, AptRun (f a)) : AptRun (x >>= f) :=
  fun s => Ends.bind (hx s) fun a s' _ => hf a s'

theorem map {g : α → β} (hx : AptRun x) : AptRun (g <$> x) := fun s => Ends.map (hx s)

theorem bind_get {f : σ → EStateM Error σ β} (hf : ∀ s, AptRun (f s)) :
    AptRun (MonadState.get >>= f) :=
  fun s => Ends.bind_get (hf s s)

theorem set {s : σ} : AptRun (set s : EStateM Error σ PUnit) := fun _ => Ends.set trivial

theorem forM {g : β → EStateM Error σ PUnit} {l : List β} (hg : ∀ c, AptRun (g c)) :
    AptRun (l.forM g) :=
  fun _ => Ends.forM (I := fun _ _ => True) trivial fun _ c s' _ _ => hg c s'

theorem filterMapM {g : β → EStateM Error σ (Option α)} {l : List β} (hg : ∀ c, AptRun (g c)) :
    AptRun (l.filterMapM g) := by
  intro s
  have hrun := Ends.filterMapM_lasting (l := l) (s := s) (I := fun _ => True)
    (p := fun _ _ => True) (g := g) (E := fun e _ => e.isMisfit = false) trivial
    fun c _ s' _ => (hg c s').imp fun _ _ _ => ⟨trivial, fun _ _ => trivial, fun _ _ => trivial⟩
  exact hrun.imp fun _ _ _ => trivial

end AptRun

/-! ### Derivations -/

namespace Blueprint

variable {b : Blueprint} {derive : String → Drafting EntityId}

theorem aptRun_markAbstract (id : EntityId) : AptRun (Drafting.markAbstract id) :=
  AptRun.bind_get fun _ => (AptRun.lift Schema.apt_entity).bind fun _ => AptRun.set

theorem aptRun_amend (id : EntityId) {change : Entity → Except Error Entity}
    (h : ∀ e, Apt (change e)) : AptRun (Drafting.amend id change) :=
  AptRun.bind_get fun _ => (AptRun.lift Schema.apt_entity).bind fun e =>
    (AptRun.lift (h e)).bind fun _ => AptRun.set

theorem aptRun_deriveParent (hd : ∀ kind, AptRun (derive kind)) (kind : String) :
    AptRun (b.deriveParent derive kind) := by
  unfold deriveParent
  cases b.grammar.parent? kind with
  | none => exact .pure none
  | some parent =>
      exact (hd parent).bind fun id => (aptRun_markAbstract id).bind fun _ => .pure _

theorem aptRun_contribute (hd : ∀ kind, AptRun (derive kind)) (id : EntityId) (kind : String)
    (slot : Slot) : AptRun (b.contribute derive id kind slot) := by
  refine (AptRun.lift apt_contribution).bind fun c => ?_
  cases c with
  | nothing => exact .pure _
  | property p => exact aptRun_amend id fun _ => Entity.apt_addProperty
  | relation name m target =>
      exact (hd target).bind fun _ => aptRun_amend id fun _ => Entity.apt_addRelation

theorem aptRun_contributeForced (hd : ∀ kind, AptRun (derive kind)) (id : EntityId) (k : Kind)
    (name : String) : AptRun (b.contributeForced derive id k name) := by
  unfold contributeForced
  cases k.slot? name with
  | none => exact .throw rfl
  | some slot => exact aptRun_contribute hd id k.name slot

theorem aptRun_deriveNew (hd : ∀ kind, AptRun (derive kind)) (k : Kind)
    (parent : Option EntityId) : AptRun (b.deriveNew derive k parent) := by
  have hadd : AptRun (Drafting.add fun id => b.outline id k.name parent) :=
    AptRun.bind_get fun _ => AptRun.set.bind fun _ => .pure _
  refine hadd.bind fun id => ?_
  refine (AptRun.forM fun slot => aptRun_contribute hd id k.name slot).bind fun _ => ?_
  exact (AptRun.forM fun name => aptRun_contributeForced hd id k name).bind fun _ => .pure _

theorem aptRun_deriveKind (hd : ∀ kind, AptRun (derive kind)) (kind : String) :
    AptRun (b.deriveKind derive kind) := by
  refine (AptRun.lift apt_kindOf).bind fun k => ?_
  refine (aptRun_deriveParent hd kind).bind fun parent => AptRun.bind_get fun d => ?_
  cases d.schema.idOf? kind with
  | some id => exact .pure id
  | none => exact aptRun_deriveNew hd k parent

theorem aptRun_lookUpOr {make : Drafting EntityId} (hm : AptRun make) (kind : String) :
    AptRun (b.lookUpOr kind make) := by
  unfold lookUpOr
  cases b.config.exclusion? kind with
  | some why => exact .throw rfl
  | none =>
      refine AptRun.bind_get fun d => ?_
      cases d.schema.idOf? kind with
      | some id => exact .pure id
      | none => exact hm

theorem aptRun_derive (levels : Nat) : ∀ kind, AptRun (b.derive levels kind) := by
  induction levels with
  | zero => exact fun kind => aptRun_lookUpOr (.throw rfl) kind
  | succ levels ih => exact fun kind => aptRun_lookUpOr (aptRun_deriveKind ih kind) kind

theorem aptRun_entityId (kind : String) : AptRun (b.entityId kind) := by
  intro s
  have hderive := aptRun_derive (b := b) (b.config.maxDepth + 1) kind ⟨s, []⟩
  unfold Ends at hderive ⊢
  unfold entityId
  cases hd : b.derive (b.config.maxDepth + 1) kind ⟨s, []⟩ with
  | ok id d => trivial
  | error e d =>
      rw [hd] at hderive
      exact hderive

end Blueprint

/-! ### Getters -/

namespace View

variable {v : View} {s s' : Schema} {e : Element} {name : String} {p : Property} {r : Relation}

theorem apt_fillingOne : Apt (v.fillingOne e name) := by
  refine Blueprint.apt_filling.bind fun x => ?_
  cases x with
  | one c => exact .ok c
  | many cs => exact Tree.apt_kind.bind fun _ => .error rfl

theorem apt_fillingMany : Apt (v.fillingMany e name) := by
  refine Blueprint.apt_filling.bind fun x => ?_
  cases x with
  | one c => exact Tree.apt_kind.bind fun _ => .error rfl
  | many cs => exact .ok cs

theorem aptRun_childElement (c : Child) : AptRun (v.childElement e name c) := by
  have hnode : Apt (v.relationNode e name c) := by
    cases c with
    | node i => exact .ok i
    | token x => exact Tree.apt_kind.bind fun _ => .error rfl
  refine (AptRun.lift hnode).bind fun i => (AptRun.lift Blueprint.apt_kept?).bind fun kept => ?_
  cases kept with
  | none => exact .pure none
  | some _ =>
      refine AptRun.map ((AptRun.lift (Blueprint.apt_elideFrom _ i)).bind fun j => ?_)
      exact (AptRun.lift Tree.apt_kind).bind fun kind =>
        (Blueprint.aptRun_entityId kind).bind fun _ => .pure _

theorem property_eq_ok_of_mem (hp : .property p ∈ s.features e.entity) :
    v.property s e p.name p.multiplicity.isSingle = .ok p := by
  have hfeature : v.feature s e p.name = .ok (.property p) := feature_eq_ok_iff.mpr ⟨hp, rfl⟩
  unfold property
  rw [hfeature]
  simp [bind, Except.bind, pure, Except.pure]

/-- The getter of a property that is listed finds it. -/
theorem apt_given (hp : .property p ∈ s.features e.entity) : Apt (v.given s e p) := by
  have hfound := property_eq_ok_of_mem (v := v) hp
  unfold given
  by_cases hsingle : p.multiplicity.isSingle = true
  · rw [if_pos hsingle]
    rw [hsingle] at hfound
    refine Apt.map ?_
    unfold value?
    rw [hfound]
    refine Apt.bind_ok ?_
    split
    · exact Tree.apt_positionOf.bind fun _ => .ok _
    · refine apt_fillingOne.bind fun c => ?_
      cases c with
      | none => exact .ok none
      | some c => exact Tree.apt_childValue.map
  · rw [if_neg hsingle]
    rw [Bool.not_eq_true] at hsingle
    rw [hsingle] at hfound
    unfold values
    rw [hfound]
    exact Apt.bind_ok (apt_fillingMany.bind fun _ => Apt.mapM fun _ => Tree.apt_childValue)

/-- The getter of a relation that is listed finds it. -/
theorem ends_related_apt (hr : .relation r ∈ s.features e.entity) :
    Ends (v.related e r) s (fun _ _ => True) fun err _ => err.isMisfit = false := by
  unfold related
  by_cases hsingle : r.multiplicity.isSingle = true
  · rw [if_pos hsingle]
    refine Ends.map (Ends.bind_get ?_)
    rw [relation_eq_ok_iff.mpr ⟨hr, rfl, hsingle⟩]
    refine Ends.bind_ok (Ends.bind_lift (fun c _ => ?_) apt_fillingOne)
    cases c with
    | none => exact Ends.pure trivial
    | some c => exact aptRun_childElement c s
  · rw [if_neg hsingle]
    rw [Bool.not_eq_true] at hsingle
    refine Ends.bind_get ?_
    rw [relation_eq_ok_iff.mpr ⟨hr, rfl, hsingle⟩]
    refine Ends.bind_ok (Ends.bind_lift (fun cs _ => ?_) apt_fillingMany)
    exact AptRun.filterMapM aptRun_childElement s

/-- All children are got relation by relation.  The schema may grow on the way, and what was listed
before is still found. -/
theorem ends_allChildren_apt (hs : Finished v.blueprint s) {kind : String}
    (hid : s.idOf? kind = some e.entity) :
    Ends (v.allChildren e) s (fun _ _ => True) fun err _ => err.isMisfit = false := by
  refine Ends.bind_get ((Ends.flatMapM_lasting (I := fun t => Evolves v.blueprint s t)
    (p := fun _ _ => True) (.refl hs) fun r hr t ht => ?_).imp fun _ _ _ => trivial)
  have hlisted : .relation r ∈ t.features e.entity := by
    rw [ht.extends_.features_eq hs.consistent ht.finished.consistent hid]
    exact Schema.mem_relations_iff.mp hr
  refine (((issues_related e r).after ht).and (ends_related_apt (v := v) hlisted)).mono ?_ ?_
  · intro ds t' h
    exact ⟨h.1.1, fun _ _ => trivial, fun _ _ => trivial⟩
  · intro err t' h
    exact h.2

end View

/--
**What is listed is found.**  Let a mapper be asked anything, with whatever success, and take an
entity that was given out.  Its list of features and the look-up by name agree, and both give what
a name stands for: the feature of the nearest entity, on the way up from this one, that has the
name.

Let the mapper then be asked anything more, and take any element with that entity.  Looking up the
name of a feature that was listed gives that feature.  The getter for its role and its multiplicity
does not fail because the feature is not there or is not what it was asked for as, and neither does
getting all children.
-/
theorem listed_features_found (v : View) (calls later : List Call) {id : EntityId}
    (hid : id ∈ (v.blueprint.session calls).issued) :
    (v.blueprint.session calls).schema.Resolves id ∧
      ∀ e : Element, e.entity = id →
        (∀ f ∈ (v.blueprint.session calls).schema.features id,
          v.feature (v.blueprint.session (calls ++ later)).schema e f.name = .ok f) ∧
        (∀ p, .property p ∈ (v.blueprint.session calls).schema.features id → ∀ err,
          v.given (v.blueprint.session (calls ++ later)).schema e p = .error err →
          err.isMisfit = false) ∧
        (∀ r, .relation r ∈ (v.blueprint.session calls).schema.features id → ∀ err s,
          v.related e r (v.blueprint.session (calls ++ later)).schema = .error err s →
          err.isMisfit = false) ∧
        ∀ err s, v.allChildren e (v.blueprint.session (calls ++ later)).schema = .error err s →
          err.isMisfit = false := by
  have hholds := Session.Holds.session v.blueprint calls
  have hc : Consistent v.blueprint (v.blueprint.session calls).schema := hholds.finished.consistent
  have hlater : Finished v.blueprint (v.blueprint.session (calls ++ later)).schema :=
    (Session.Holds.session v.blueprint _).finished
  have hextends := extends_session_append v.blueprint calls later
  obtain ⟨x, hx⟩ := Schema.entity?_of_lt (hholds.issued id hid)
  have hkind : (v.blueprint.session calls).schema.idOf? x.kind = some id :=
    hc.idOf?_eq_some_iff.mpr ⟨x, hx, rfl⟩
  have hfeatures := hextends.features_eq hc hlater.consistent hkind
  refine ⟨hc.resolves hx, fun e he => ?_⟩
  subst he
  rw [← hfeatures]
  refine ⟨fun f hf => ?_, fun p hp => ?_, fun r hr err s herr => ?_, fun err s herr => ?_⟩
  · exact View.feature_eq_ok_iff.mpr ⟨hf, rfl⟩
  · exact View.apt_given hp
  · exact (View.ends_related_apt hr).of_error herr
  · exact (View.ends_allChildren_apt hlater (hextends.idOf? hkind)).of_error herr

namespace View

/-- The node of a block, taken for a call. -/
def strangeCall : Element := ⟨0, ⟨0⟩, ⟨2⟩, []⟩

/-- Its arguments cannot be got, as a block has no place for them, but the relation is there. -/
theorem listed_features_found_strangeCall :
    ⟨2⟩ ∈ (calls.session innerCalls).issued ∧
      (calls.session innerCalls).schema.Resolves ⟨2⟩ ∧
      ∃ err s, callView.related strangeCall ⟨"arg", .containment, .many, ⟨2⟩, ⟨3⟩⟩
          (calls.session (innerCalls ++ [.deriveAll])).schema = .error err s ∧
        err = .noAccessor "arg" "Block" ∧ err.isMisfit = false := by
  have hid : ⟨2⟩ ∈ (calls.session innerCalls).issued := by decide +kernel
  have hlisted : .relation ⟨"arg", .containment, .many, ⟨2⟩, ⟨3⟩⟩ ∈
      (calls.session innerCalls).schema.features ⟨2⟩ := by decide +kernel
  have hfails : callView.related strangeCall ⟨"arg", .containment, .many, ⟨2⟩, ⟨3⟩⟩
      (calls.session (innerCalls ++ [.deriveAll])).schema
        = .error (.noAccessor "arg" "Block")
          (calls.session (innerCalls ++ [.deriveAll])).schema := by decide +kernel
  obtain ⟨hresolves, hgetters⟩ := listed_features_found callView innerCalls [.deriveAll] hid
  obtain ⟨-, -, hrelations, -⟩ := hgetters strangeCall rfl
  exact ⟨hid, hresolves, _, _, hfails, rfl, hrelations _ hlisted _ _ hfails⟩

end View

end TreeSchema
