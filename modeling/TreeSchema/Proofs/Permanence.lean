/-
Entities that were given out stay as they are.

A mapper is asked many things, one after the other: for the entities of kinds, for the elements
of a document, for their children, for a walk through all of them.  Some of it derives entities on
the way, some of it fails, and a failure may come after other parts of the same request
succeeded.  `Issues` is what each of these computations has in common: on a finished schema it
leaves a finished schema that has all that was there, whether or not it succeeds, and whatever
entities are in its answer are there.  Its rules follow the way a computation is put together, so
that each request is checked by going through its text.

A session is any row of calls.  By induction on the row, the schema only grows, and all that was
given out in it stays.
-/
import TreeSchema.Element.Navigation
import TreeSchema.Proofs.SourceOrder

namespace TreeSchema

/-! ### Schemas one after the other -/

/-- The schema `s'` can come after `s`. -/
structure Evolves (b : Blueprint) (s s' : Schema) : Prop where
  finished : Finished b s'
  extends_ : s.Extends s'

namespace Evolves

variable {b : Blueprint} {s s' s'' : Schema}

theorem refl (h : Finished b s) : Evolves b s s := ⟨h, .refl s⟩

theorem trans (h : Evolves b s s') (h' : Evolves b s' s'') : Evolves b s s'' :=
  ⟨h'.finished, h.extends_.trans h'.extends_⟩

/-- An entity that was there still is. -/
theorem index_lt (h : Evolves b s s') {id : EntityId} (hid : id.index < s.size) :
    id.index < s'.size :=
  Nat.lt_of_lt_of_le hid h.extends_.size_le

end Evolves

/-! ### Requests that only add -/

/-- However it ends, a request only adds to the schema, and the entities in its answer are there.
The schema is part of the state of the request. -/
def Issues {τ α : Type} (b : Blueprint) (schemaOf : τ → Schema) (x : EStateM Error τ α)
    (ids : α → List EntityId) : Prop :=
  ∀ t, Finished b (schemaOf t) →
    Ends x t
      (fun a t' => Evolves b (schemaOf t) (schemaOf t') ∧
        ∀ id ∈ ids a, id.index < (schemaOf t').size)
      fun _ t' => Evolves b (schemaOf t) (schemaOf t')

namespace Issues

variable {τ α β : Type} {b : Blueprint} {schemaOf : τ → Schema} {x : EStateM Error τ α}
  {f : α → EStateM Error τ β} {ids : α → List EntityId} {ids' : β → List EntityId}

theorem pure {a : α} (h : ids a = []) : Issues b schemaOf (pure a) ids :=
  fun _ ht => Ends.pure ⟨.refl ht, by simp [h]⟩

theorem throw (e : Error) : Issues b schemaOf (throw e) ids := fun _ ht => Ends.throw (.refl ht)

/-- What comes after other requests adds to what they left. -/
theorem after (hx : Issues b schemaOf x ids) {s : Schema} {t : τ} (h : Evolves b s (schemaOf t)) :
    Ends x t
      (fun a t' => Evolves b s (schemaOf t') ∧ Evolves b (schemaOf t) (schemaOf t') ∧
        ∀ id ∈ ids a, id.index < (schemaOf t').size)
      fun _ t' => Evolves b s (schemaOf t') :=
  (hx t h.finished).mono (fun _ _ h' => ⟨h.trans h'.1, h'⟩) fun _ _ h' => h.trans h'

theorem bind (hx : Issues b schemaOf x ids) (hf : ∀ a, Issues b schemaOf (f a) ids') :
    Issues b schemaOf (x >>= f) ids' := fun t ht =>
  Ends.bind (hx t ht) fun a _ h => ((hf a).after h.1).imp fun _ _ h' => ⟨h'.1, h'.2.2⟩

theorem map {g : α → β} (hx : Issues b schemaOf x fun a => ids' (g a)) :
    Issues b schemaOf (g <$> x) ids' :=
  fun t ht => Ends.map (hx t ht)

theorem bind_pure {g : α → β} (hx : Issues b schemaOf x fun a => ids' (g a)) :
    Issues b schemaOf (x >>= fun a => Pure.pure (g a)) ids' := by
  rw [bind_pure_comp]
  exact hx.map

/-- Giving out the entities in what a request found. -/
theorem report (hx : Issues b schemaOf x ids) :
    Issues b schemaOf (x >>= fun a => Pure.pure (ids a)) fun ids => ids := by
  refine bind_pure ?_
  exact hx

theorem bind_lift {x : Except Error α} (hf : ∀ a, Issues b schemaOf (f a) ids') :
    Issues b schemaOf (liftExcept x >>= f) ids' :=
  fun t ht => Ends.bind_lift (fun a _ => hf a t ht) fun _ _ => .refl ht

theorem bind_get {f : τ → EStateM Error τ β} (hf : ∀ t, Issues b schemaOf (f t) ids') :
    Issues b schemaOf (MonadState.get >>= f) ids' :=
  fun t ht => Ends.bind_get (hf t t ht)

/-- Looking at the schema, to find entities that are in it. -/
theorem look {g : Schema → List EntityId}
    (h : ∀ s, Finished b s → ∀ id ∈ g s, id.index < s.size) :
    Issues b (fun s => s) (MonadState.get >>= fun s => Pure.pure (g s)) fun ids => ids :=
  fun s hs => Ends.bind_get (Ends.pure ⟨.refl hs, h s hs⟩)

/-- A request that reads the schema, and gives entities that are in it. -/
theorem read {g : Schema → Except Error α}
    (h : ∀ s a, Finished b s → g s = .ok a → ∀ id ∈ ids a, id.index < s.size) :
    Issues b (fun s => s) (MonadState.get >>= fun s => liftExcept (g s)) ids :=
  fun s hs => Ends.bind_get (Ends.lift (fun a ha => ⟨.refl hs, h s a hs ha⟩) fun _ _ => .refl hs)

theorem forM {g : β → EStateM Error τ PUnit} {l : List β}
    (hg : ∀ c, Issues b schemaOf (g c) fun _ => []) : Issues b schemaOf (l.forM g) fun _ => [] := by
  induction l with
  | nil => exact Issues.pure rfl
  | cons c l ih => exact (hg c).bind fun _ => ih

variable {idOf : β → EntityId} {l : List α}

theorem flatMapM {g : α → EStateM Error τ (List β)}
    (hg : ∀ c, Issues b schemaOf (g c) fun xs => xs.map idOf) :
    Issues b schemaOf (l.flatMapM g) fun xs => xs.map idOf := by
  intro t ht
  refine (Ends.flatMapM_lasting (I := fun t' => Evolves b (schemaOf t) (schemaOf t'))
    (p := fun x t' => (idOf x).index < (schemaOf t').size) (.refl ht) fun c _ t' ht' => ?_).imp
    fun xs t' h => ⟨h.1, List.forall_mem_map.mpr h.2.2⟩
  refine ((hg c).after ht').imp fun xs t'' h => ⟨h.1, fun x hx => h.2.1.index_lt hx, ?_⟩
  exact List.forall_mem_map.mp h.2.2

theorem filterMapM {g : α → EStateM Error τ (Option β)}
    (hg : ∀ c, Issues b schemaOf (g c) fun o => o.toList.map idOf) :
    Issues b schemaOf (l.filterMapM g) fun xs => xs.map idOf := by
  rw [filterMapM_eq_flatMapM]
  exact flatMapM fun c => (hg c).map

end Issues

/-! ### Entities -/

namespace Entity

/-- The entities that an entity names: itself, its parent, and the ends of its relations. -/
def mentions (e : Entity) : List EntityId :=
  e.id :: e.parent.toList ++ e.relations.flatMap fun r => [r.source, r.target]

end Entity

/-- The entities that a feature names. -/
def Feature.mentions : Feature → List EntityId
  | property _ => []
  | relation r => [r.source, r.target]

namespace Finished

variable {b : Blueprint} {s : Schema} {e : Entity} {id p : EntityId} {f : Feature}

/-- What an entity names is there. -/
theorem index_lt_of_mem_mentions (h : Finished b s) (he : s.entity? id = some e)
    (hp : p ∈ e.mentions) : p.index < s.size := by
  have hid := Schema.index_lt he
  rcases List.mem_append.mp hp with hp | hp
  · rcases List.mem_cons.mp hp with rfl | hp
    · rw [h.consistent.numbered he]
      exact hid
    · obtain ⟨_, -, -, hlt⟩ := h.consistent.exists_parent_kind he (Option.mem_toList.mp hp)
      exact Nat.lt_trans hlt hid
  · obtain ⟨r, hr, hp⟩ := List.mem_flatMap.mp hp
    obtain ⟨-, hsource, htarget⟩ := h.consistent.containment he hr
    rcases List.mem_cons.mp hp with rfl | hp
    · rw [hsource]
      exact hid
    · rw [List.mem_singleton.mp hp]
      exact htarget

/-- What a feature names is there, whichever entity above it comes from. -/
theorem index_lt_of_mem_features (h : Finished b s) (hf : f ∈ s.features id)
    (hp : p ∈ f.mentions) : p.index < s.size := by
  obtain ⟨i, e, -, he, hmem⟩ := Schema.exists_entity_of_mem_features hf
  refine h.index_lt_of_mem_mentions he (List.mem_append_right _ ?_)
  cases f with
  | property q => cases hp
  | relation r =>
      refine List.mem_flatMap.mpr ⟨r, ?_, hp⟩
      simpa [Entity.features] using hmem

/-- What is above an entity is there. -/
theorem index_lt_of_mem_ancestorsUpTo (h : Finished b s) (n : Nat) :
    ∀ seen id, p ∈ s.ancestorsUpTo n seen id → p.index < s.size := by
  induction n with
  | zero =>
      intro seen id hp
      cases hp
  | succ n ih =>
      intro seen id hp
      unfold Schema.ancestorsUpTo at hp
      split at hp
      · cases hp
      · next q hq =>
        split at hp
        · cases hp
        · rcases List.mem_cons.mp hp with rfl | hp
          · obtain ⟨e, he, hparent⟩ := Option.bind_eq_some_iff.mp hq
            refine h.index_lt_of_mem_mentions he (List.mem_append_left _ ?_)
            exact List.mem_cons_of_mem _ (Option.mem_toList.mpr hparent)
          · exact ih _ _ hp

end Finished

namespace Blueprint

variable {b : Blueprint}

theorem issues_entityId (kind : String) :
    Issues b (fun s => s) (b.entityId kind) fun id => [id] := by
  intro s hs
  refine (hs.ends_entityId kind).mono (fun id s' h => ⟨⟨h.1, h.2.1⟩, ?_⟩) fun _ s' h => ?_
  · rw [List.forall_mem_singleton]
    exact h.1.consistent.index_lt_of_idOf? h.2.2
  · obtain ⟨rfl, -⟩ := h
    exact .refl hs

theorem issues_entityFor (kind : String) :
    Issues b (fun s => s) (b.entityFor kind) Entity.mentions := by
  refine (issues_entityId kind).bind fun id => Issues.read fun s e hs he p hp => ?_
  exact hs.index_lt_of_mem_mentions (Schema.entity_eq_ok_iff.mp he) hp

theorem issues_deriveAll : Issues b (fun s => s) b.deriveAll fun _ => [] := by
  refine (Issues.forM fun kind => ?_).bind fun _ => Issues.bind_get fun _ => .pure rfl
  exact (issues_entityId kind).bind fun _ => .pure rfl

end Blueprint

/-! ### Elements -/

namespace View

variable {v : View}

theorem issues_element (i : NodeId) (above : List Placement) :
    Issues v.blueprint (fun s => s) (v.element i above) fun e => [e.entity] := by
  refine Issues.bind_lift fun j => Issues.bind_lift fun kind => ?_
  exact (Blueprint.issues_entityId kind).bind_pure

theorem issues_root : Issues v.blueprint (fun s => s) v.root fun e => [e.entity] := by
  unfold root
  cases v.tree.root with
  | none => exact .throw _
  | some i => exact issues_element i []

theorem issues_childElement (e : Element) (relation : String) (c : Child) :
    Issues v.blueprint (fun s => s) (v.childElement e relation c)
      fun o => o.toList.map Element.entity := by
  refine Issues.bind_lift fun i => Issues.bind_lift fun kept => ?_
  cases kept with
  | none => exact .pure rfl
  | some _ => exact (issues_element i _).map

theorem issues_child? (e : Element) (name : String) :
    Issues v.blueprint (fun s => s) (v.child? e name) fun o => o.toList.map Element.entity := by
  refine Issues.bind_get fun s => Issues.bind_lift fun r => Issues.bind_lift fun child => ?_
  cases child with
  | none => exact .pure rfl
  | some c => exact issues_childElement e r.name c

theorem issues_children (e : Element) (name : String) :
    Issues v.blueprint (fun s => s) (v.children e name) fun es => es.map Element.entity := by
  refine Issues.bind_get fun s => Issues.bind_lift fun r => Issues.bind_lift fun cs => ?_
  exact Issues.filterMapM fun c => issues_childElement e r.name c

theorem issues_related (e : Element) (r : Relation) :
    Issues v.blueprint (fun s => s) (v.related e r) fun es => es.map Element.entity := by
  unfold related
  split
  · exact (issues_child? e r.name).map
  · exact issues_children e r.name

theorem issues_allChildren (e : Element) :
    Issues v.blueprint (fun s => s) (v.allChildren e) fun es => es.map Element.entity :=
  Issues.bind_get fun _ => Issues.flatMapM fun r => issues_related e r

theorem issues_firstChild? (e : Element) :
    Issues v.blueprint (fun s => s) (v.firstChild? e) fun o => o.toList.map Element.entity := by
  intro s hs
  refine Ends.map ((issues_allChildren e s hs).imp fun es s' h => ⟨h.1, fun id hid => h.2 id ?_⟩)
  obtain ⟨d, hd, rfl⟩ := List.mem_map.mp hid
  exact List.mem_map_of_mem (List.mem_of_head? (Option.mem_toList.mp hd))

/-- References are to features of the element. -/
theorem feature_mem_of_valuesOrder {s : Schema} {e : Element} {refs : List ValueReference}
    (h : v.valuesOrder s e = .ok refs) {r : ValueReference} (hr : r ∈ refs) :
    r.feature ∈ s.features e.entity := by
  obtain ⟨-, rfl⟩ := valuesOrder_eq_ok h
  obtain ⟨⟨_, span⟩, hentry, rfl⟩ := List.mem_map.mp hr
  obtain ⟨f, hf, hmem⟩ := List.mem_flatMap.mp (List.mem_mergeSort.mp hentry)
  rw [(mem_references_iff.mp hmem).1]
  exact perm_encountered.mem_iff.mp hf

end View

/-! ### Walks -/

/-- What a visitor does with an element.  It may ask the mapper for anything, and this is all that
it does to the schema. -/
structure Visitor (b : Blueprint) (σ : Type) where
  act : Element → Visiting σ Unit
  asks : ∀ e, Issues b Prod.fst (act e) fun _ => []

namespace View

section Walks

variable {σ : Type} {b : Blueprint} {v : View} {visitor : Element → Visiting σ Unit}

theorem issues_onSchema {α : Type} {request : Deriving α} {ids : α → List EntityId}
    (h : Issues b (fun s => s) request ids) :
    Issues b Prod.fst (Visiting.onSchema request : Visiting σ α) ids := by
  rintro ⟨s, seen⟩ hs
  have hrun := h s hs
  unfold Ends at hrun ⊢
  dsimp only [Visiting.onSchema]
  cases hr : request s with
  | ok a s' => rw [hr] at hrun; exact hrun
  | error e s' => rw [hr] at hrun; exact hrun

theorem issues_walk (h : ∀ e, Issues v.blueprint Prod.fst (visitor e) fun _ => [])
    (levels : Nat) : ∀ e, Issues v.blueprint Prod.fst (v.walk visitor levels e) fun _ => [] := by
  induction levels with
  | zero =>
      intro e
      refine (issues_onSchema (issues_allChildren e)).bind fun children => ?_
      split
      · exact .throw _
      · exact .pure rfl
  | succ levels ih =>
      intro e
      refine (issues_onSchema (issues_allChildren e)).bind fun children => ?_
      exact Issues.forM fun c => (h c).bind fun _ => ih c

theorem issues_visit (h : ∀ e, Issues v.blueprint Prod.fst (visitor e) fun _ => [])
    (includeSelf : Bool) (e : Element) :
    Issues v.blueprint Prod.fst (v.visit visitor includeSelf e) fun _ => [] := by
  have hwalk := issues_walk h v.blueprint.config.maxDepth e
  cases includeSelf with
  | false => exact hwalk
  | true => exact (h e).bind fun _ => hwalk

end Walks

end View

/-! ### Sessions -/

/-- What can be asked of a mapper that has to do with its schema.  Where it is about elements, the
document is that of the elements. -/
inductive Call : Type 1 where
  | entityId (kind : String)
  | entityFor (kind : String)
  | deriveAll
  /-- The entity of a kind, if it is there. -/
  | idOf (kind : String)
  /-- The entity of a number, if it is there. -/
  | entity (id : EntityId)
  | entities
  | features (id : EntityId)
  | feature (id : EntityId) (name : String)
  | ancestry (id : EntityId)
  | root (document : Document)
  | element (document : Document) (node : NodeId) (above : List Placement)
  | child (document : Document) (e : Element) (name : String)
  | children (document : Document) (e : Element) (name : String)
  | allChildren (document : Document) (e : Element)
  | firstChild (document : Document) (e : Element)
  | value (document : Document) (e : Element) (name : String)
  | values (document : Document) (e : Element) (name : String)
  | valuesOrder (document : Document) (e : Element)
  | mutate (document : Document) (e : Element) (m : Mutation) (feature : String)
  /-- A visit of an element, by a visitor that is told which mapper it is to ask. -/
  | visit (document : Document) {σ : Type} (visitor : ∀ b, Visitor b σ) (seen : σ)
      (includeSelf : Bool) (e : Element)

namespace Blueprint

/-- Runs a walk for what it does to the schema. -/
def walkThrough {σ : Type} (walk : Visiting σ Unit) (seen : σ) : Deriving Unit := fun s =>
  match walk (s, seen) with
  | .ok () (s, _) => .ok () s
  | .error e (s, _) => .error e s

/-- The entities in the answer to a call, apart from those that it was asked about. -/
def answer (b : Blueprint) : Call → Deriving (List EntityId)
  | .entityId kind => do return [← b.entityId kind]
  | .entityFor kind => do return (← b.entityFor kind).mentions
  | .deriveAll => do
    let _ ← b.deriveAll
    return []
  | .idOf kind => do return ((← get).idOf? kind).toList
  | .entity id => do return ((← get).entity? id).toList.flatMap Entity.mentions
  | .entities => do return (← get).entities.toList.flatMap Entity.mentions
  | .features id => do return ((← get).features id).flatMap Feature.mentions
  | .feature id name => do return ((← get).feature? id name).toList.flatMap Feature.mentions
  | .ancestry id => do return ((← get).ancestry id).tail
  | .root d => do return [(← View.root ⟨b, d⟩).entity]
  | .element d node above => do return [(← View.element ⟨b, d⟩ node above).entity]
  | .child d e name => do return (← View.child? ⟨b, d⟩ e name).toList.map Element.entity
  | .children d e name => do return (← View.children ⟨b, d⟩ e name).map Element.entity
  | .allChildren d e => do return (← View.allChildren ⟨b, d⟩ e).map Element.entity
  | .firstChild d e => do return (← View.firstChild? ⟨b, d⟩ e).toList.map Element.entity
  | .value d e name => do
    let _ ← liftExcept (View.value? ⟨b, d⟩ (← get) e name)
    return []
  | .values d e name => do
    let _ ← liftExcept (View.values ⟨b, d⟩ (← get) e name)
    return []
  | .valuesOrder d e => do
    let refs ← liftExcept (View.valuesOrder ⟨b, d⟩ (← get) e)
    return refs.flatMap fun r => r.feature.mentions
  | .mutate d e m feature => do
    let _ ← liftExcept (View.mutate ⟨b, d⟩ e m feature)
    return []
  | .visit d visitor seen includeSelf e => do
    let _ ← walkThrough (View.visit ⟨b, d⟩ (visitor b).act includeSelf e) seen
    return []

theorem issues_walkThrough {σ : Type} {walk : Visiting σ Unit}
    (h : Issues b Prod.fst walk fun _ => []) (seen : σ) :
    Issues b (fun s => s) (walkThrough walk seen) fun _ => [] := by
  intro s hs
  have hrun := h (s, seen) hs
  unfold Ends at hrun ⊢
  unfold walkThrough
  cases hw : walk (s, seen) with
  | ok a t => rw [hw] at hrun; exact hrun
  | error e t => rw [hw] at hrun; exact hrun

/-- The entities that a call gives out are there, and whatever else was there still is. -/
theorem issues_answer (b : Blueprint) (c : Call) :
    Issues b (fun s => s) (b.answer c) fun ids => ids := by
  cases c with
  | entityId kind => exact (issues_entityId kind).report
  | entityFor kind => exact (issues_entityFor kind).report
  | deriveAll => exact issues_deriveAll.bind fun _ => .pure rfl
  | idOf kind =>
      exact .look fun s hs id hid => hs.consistent.index_lt_of_idOf? (Option.mem_toList.mp hid)
  | entity id =>
      refine .look fun s hs p hp => ?_
      obtain ⟨e, he, hp⟩ := List.mem_flatMap.mp hp
      exact hs.index_lt_of_mem_mentions (Option.mem_toList.mp he) hp
  | entities =>
      refine .look fun s hs p hp => ?_
      obtain ⟨e, he, hp⟩ := List.mem_flatMap.mp hp
      obtain ⟨i, hi⟩ := List.mem_iff_getElem?.mp he
      rw [Array.getElem?_toList] at hi
      have hentity : s.entity? ⟨i⟩ = some e := hi
      exact hs.index_lt_of_mem_mentions hentity hp
  | features id =>
      refine .look fun s hs p hp => ?_
      obtain ⟨f, hf, hp⟩ := List.mem_flatMap.mp hp
      exact hs.index_lt_of_mem_features hf hp
  | feature id name =>
      refine .look fun s hs p hp => ?_
      obtain ⟨f, hf, hp⟩ := List.mem_flatMap.mp hp
      have hfeature := (Schema.feature?_eq_some_iff.mp (Option.mem_toList.mp hf)).1
      exact hs.index_lt_of_mem_features hfeature hp
  | ancestry id => exact .look fun s hs p hp => hs.index_lt_of_mem_ancestorsUpTo _ _ _ hp
  | root d => exact (View.issues_root (v := ⟨b, d⟩)).report
  | element d node above => exact (View.issues_element (v := ⟨b, d⟩) node above).report
  | child d e name => exact (View.issues_child? (v := ⟨b, d⟩) e name).report
  | children d e name => exact (View.issues_children (v := ⟨b, d⟩) e name).report
  | allChildren d e => exact (View.issues_allChildren (v := ⟨b, d⟩) e).report
  | firstChild d e => exact (View.issues_firstChild? (v := ⟨b, d⟩) e).report
  | value d e name => exact .bind_get fun s => .bind_lift fun _ => .pure rfl
  | values d e name => exact .bind_get fun s => .bind_lift fun _ => .pure rfl
  | valuesOrder d e =>
      intro s hs
      refine Ends.bind_get (Ends.bind_lift (fun refs hrefs => Ends.pure ⟨.refl hs, ?_⟩)
        fun _ _ => .refl hs)
      intro p hp
      obtain ⟨r, hr, hp⟩ := List.mem_flatMap.mp hp
      exact hs.index_lt_of_mem_features (View.feature_mem_of_valuesOrder hrefs hr) hp
  | mutate d e m feature => exact .bind_lift fun _ => .pure rfl
  | visit d visitor seen includeSelf e =>
      have hvisit := View.issues_visit (v := ⟨b, d⟩) (visitor b).asks includeSelf e
      exact (issues_walkThrough hvisit seen).bind fun _ => .pure rfl

end Blueprint

/-- A mapper in use: its schema, and all entities that were given out so far. -/
structure Session where
  schema : Schema
  issued : List EntityId

namespace Blueprint

/-- The session after a call, whether or not it succeeded. -/
def call (b : Blueprint) (t : Session) (c : Call) : Session :=
  match b.answer c t.schema with
  | .ok ids s => ⟨s, t.issued ++ ids⟩
  | .error _ s => { t with schema := s }

/-- The session after a row of calls. -/
def session (b : Blueprint) (calls : List Call) : Session := calls.foldl b.call ⟨.empty, []⟩

end Blueprint

/-- What holds of every session: the schema is finished, and what was given out is there. -/
structure Session.Holds (b : Blueprint) (t : Session) : Prop where
  finished : Finished b t.schema
  issued : ∀ id ∈ t.issued, id.index < t.schema.size

namespace Session.Holds

variable {b : Blueprint} {t : Session}

/-- A call keeps what holds, and only adds to the schema. -/
theorem call (h : t.Holds b) (c : Call) :
    (b.call t c).Holds b ∧ t.schema.Extends (b.call t c).schema := by
  have hanswer := b.issues_answer c t.schema h.finished
  unfold Ends at hanswer
  unfold Blueprint.call
  cases hr : b.answer c t.schema with
  | ok ids s =>
      rw [hr] at hanswer
      obtain ⟨hevolves, hids⟩ := hanswer
      refine ⟨⟨hevolves.finished, fun id hid => ?_⟩, hevolves.extends_⟩
      rcases List.mem_append.mp hid with hid | hid
      · exact hevolves.index_lt (h.issued id hid)
      · exact hids id hid
  | error e s =>
      rw [hr] at hanswer
      exact ⟨⟨hanswer.finished, fun id hid => hanswer.index_lt (h.issued id hid)⟩,
        hanswer.extends_⟩

/-- So does a row of calls. -/
theorem foldl_call (h : t.Holds b) (calls : List Call) :
    (calls.foldl b.call t).Holds b ∧ t.schema.Extends (calls.foldl b.call t).schema := by
  induction calls generalizing t with
  | nil => exact ⟨h, .refl _⟩
  | cons c calls ih =>
      obtain ⟨hcall, hextends⟩ := h.call c
      obtain ⟨hrest, hextends'⟩ := ih hcall
      exact ⟨hrest, hextends.trans hextends'⟩

theorem session (b : Blueprint) (calls : List Call) : (b.session calls).Holds b :=
  (foldl_call ⟨.empty b, by simp⟩ calls).1

end Session.Holds

/-- In the course of more calls the schema only grows. -/
theorem extends_session_append (b : Blueprint) (calls later : List Call) :
    (b.session calls).schema.Extends (b.session (calls ++ later)).schema := by
  have hholds := Session.Holds.session b calls
  rw [Blueprint.session, Blueprint.session, List.foldl_append]
  exact (hholds.foldl_call later).2

/--
**Entities that were given out are permanent.**  Let a mapper be asked anything, and then
anything more, with whatever success.  Every entity that was given out is there.  Every entity
that is there keeps its place for good, with its kind, name, parent, properties and relations, and
if it is abstract it remains so.  The number of a kind, once it has one, is not changed, and the
schema gets no smaller.
-/
theorem issued_permanent (b : Blueprint) (before later : List Call) :
    (∀ id ∈ (b.session before).issued, ∃ e, (b.session before).schema.entity? id = some e) ∧
      (∀ id e, (b.session before).schema.entity? id = some e →
        ∃ e', (b.session (before ++ later)).schema.entity? id = some e' ∧
          e'.id = e.id ∧ e'.kind = e.kind ∧ e'.name = e.name ∧ e'.parent = e.parent ∧
          e'.properties = e.properties ∧ e'.relations = e.relations ∧
          (e.isAbstract = true → e'.isAbstract = true)) ∧
      (∀ kind id, (b.session before).schema.idOf? kind = some id →
        (b.session (before ++ later)).schema.idOf? kind = some id) ∧
      (b.session before).schema.size ≤ (b.session (before ++ later)).schema.size := by
  have hbefore := Session.Holds.session b before
  have hextends : (b.session before).schema.Extends (b.session (before ++ later)).schema := by
    rw [Blueprint.session, Blueprint.session, List.foldl_append]
    exact (hbefore.foldl_call later).2
  refine ⟨fun id hid => Schema.entity?_of_lt (hbefore.issued id hid), fun id e he => ?_,
    fun kind id hid => hextends.idOf? hid, hextends.size_le⟩
  obtain ⟨e', he', hgrown⟩ := hextends.entity he
  refine ⟨e', he', hgrown.id_eq, hgrown.kind_eq, hgrown.name_eq, hgrown.parent_eq,
    hgrown.properties_eq, hgrown.relations_eq, fun habstract => ?_⟩
  rcases hgrown with rfl | rfl
  · exact habstract
  · rfl

/-- Statements are given out, and become abstract when calls are asked for. -/
example :
    (calls.session [.entityId "Stmt"]).issued = [⟨0⟩] ∧
      ((calls.session [.entityId "Stmt"]).schema.entity? ⟨0⟩).map Entity.isAbstract = some false ∧
      ((calls.session [.entityId "Stmt", .entityId "Call"]).schema.entity? ⟨0⟩).map
        Entity.isAbstract = some true := by
  decide +kernel

end TreeSchema
