/-
Reading well-typed trees.

A tree that the grammar describes, seen through the schema of all kinds, can be looked
through without an error: every relation that an element lists can be followed, and what it
leads to are elements of its target or of entities that derive from it.  Each of them stands
for a node with the entity of its kind, which is all that the next step needs, so it goes on
like that, whatever is asked and in whatever order.  The schema stays as it is.
-/
import TreeSchema.Element.Reading
import TreeSchema.Proofs.Saturated

namespace TreeSchema

variable {b : Blueprint} {s : Schema}

/-- Asking for an entity that is there gives its number and changes nothing. -/
theorem Finished.entityId_eq_ok (h : Finished b s) {kind : String} {id : EntityId}
    (hid : s.idOf? kind = some id) : b.entityId kind s = .ok id s := by
  obtain ⟨e, he, rfl⟩ := h.consistent.idOf?_eq_some_iff.mp hid
  have hnone := Blueprint.exclusion?_eq_none_iff.mpr (h.consistent.mappable he)
  have hderive : Ends (b.derive (b.config.maxDepth + 1) e.kind) ⟨s, []⟩
      (fun i d => d = ⟨s, []⟩ ∧ i = id) fun _ _ => False := by
    unfold Blueprint.derive Blueprint.lookUpOr
    rw [hnone]
    refine Ends.bind_get ?_
    simp only [hid]
    exact Ends.pure ⟨rfl, rfl⟩
  obtain ⟨i, hi, rfl⟩ := hderive.exists_ok
  unfold Blueprint.entityId
  rw [hi]

namespace View

variable {v : View} {e : Element}

/-- An element stands for a node that is there, and has the entity of its kind. -/
def Stands (v : View) (s : Schema) (e : Element) : Prop :=
  ∃ n, v.tree.node? e.node = some n ∧ s.idOf? n.kind = some e.entity

/-! ### Looking relations up -/

theorem feature_eq_ok_iff {name : String} {f : Feature} :
    v.feature s e name = .ok f ↔ f ∈ s.features e.entity ∧ f.name = name := by
  rw [← Schema.feature?_eq_some_iff]
  unfold feature
  cases hf : s.feature? e.entity name with
  | none =>
      simp only [reduceCtorEq, iff_false]
      intro h
      obtain ⟨_, -, h⟩ := bind_eq_ok_iff.mp h
      cases h
  | some g => simp [pure, Except.pure]

theorem relation_eq_ok_iff {name : String} {single : Bool} {r : Relation} :
    v.relation s e name single = .ok r ↔
      .relation r ∈ s.features e.entity ∧ r.name = name ∧ r.multiplicity.isSingle = single := by
  unfold relation
  rw [bind_eq_ok_iff]
  constructor
  · rintro ⟨f, hf, h⟩
    obtain ⟨hmem, hname⟩ := feature_eq_ok_iff.mp hf
    cases f with
    | property p =>
        obtain ⟨_, -, h⟩ := bind_eq_ok_iff.mp h
        cases h
    | relation r' =>
        by_cases hsingle : r'.multiplicity.isSingle = single
        · simp only [if_pos hsingle] at h
          cases h
          exact ⟨hmem, hname, hsingle⟩
        · simp only [if_neg hsingle] at h
          obtain ⟨_, -, h⟩ := bind_eq_ok_iff.mp h
          cases h
  · rintro ⟨hmem, hname, hsingle⟩
    refine ⟨.relation r, feature_eq_ok_iff.mpr ⟨hmem, hname⟩, ?_⟩
    simp [hsingle, pure, Except.pure]

/-! ### Following a relation -/

theorem kept?_eq_ok {t : Tree} {i j : NodeId} {n : Node} (hj : b.elide t i = .ok j)
    (hn : t.node? j = some n) :
    b.kept? t i = .ok (if b.config.isDropped n.kind then none else some j) := by
  unfold Blueprint.kept?
  rw [hj]
  show (t.kind j >>= _) = _
  rw [Tree.kind_eq_ok hn]
  rfl

/-- A node in whose place a node with an entity is seen becomes an element for that one. -/
theorem ends_element (hf : Finished v.blueprint s) {i j : NodeId} {n : Node} {id : EntityId}
    (hj : v.blueprint.elide v.tree i = .ok j) (hn : v.tree.node? j = some n)
    (hid : s.idOf? n.kind = some id) (above : List Placement) :
    Ends (v.element i above) s (fun d s' => s' = s ∧ v.Stands s d ∧ d.entity = id)
      fun _ _ => False := by
  unfold element
  rw [hj]
  refine Ends.bind_ok ?_
  rw [Tree.kind_eq_ok hn]
  refine Ends.bind_ok ?_
  refine Ends.bind (P := fun i s' => s' = s ∧ i = id) ?_ fun i s' hi => ?_
  · unfold Ends
    rw [hf.entityId_eq_ok hid]
    exact ⟨rfl, rfl⟩
  · obtain ⟨rfl, rfl⟩ := hi
    exact Ends.pure ⟨rfl, ⟨n, hn, hid⟩, rfl⟩

variable (hs : Saturated v.blueprint s) (h : v.blueprint.Disciplined)
  (ht : v.blueprint.WellTyped v.tree)

include hs h ht

/-- A child that fits the target of a slot is dropped or becomes an element whose entity is,
or derives from, that of the kind that the target elides to. -/
theorem ends_childElement (e : Element) (name : String) {c : Child} {target effective : String}
    {id : EntityId} (hfits : v.blueprint.Fits v.tree (.node target) c)
    (helides : v.blueprint.Elides target effective)
    (hnode : effective ∉ v.blueprint.config.flattened) (hid : s.idOf? effective = some id) :
    Ends (v.childElement e name c) s
      (fun x s' => s' = s ∧ ∀ d ∈ x, v.Stands s d ∧ id ∈ s.ancestry d.entity) fun _ _ => False := by
  cases c with
  | token i => exact hfits.elim
  | node i =>
      obtain ⟨n, hn, hconforms⟩ := hfits
      obtain ⟨j, m, hj, hm, hplain, hfit⟩ :=
        ht.elideFrom_eq_ok h hs v.tree.nodes.size hn (by omega) hconforms helides
      refine Ends.bind_ok ?_
      rw [kept?_eq_ok hj hm]
      by_cases hdropped : m.kind ∈ v.blueprint.config.dropped
      · simp only [Config.isDropped, hdropped, decide_true, if_true]
        exact Ends.pure ⟨rfl, by simp⟩
      · have heffective := hfit hdropped
        have hflat : m.kind ∉ v.blueprint.config.flattened := by
          by_cases heq : m.kind = effective
          · exact heq ▸ hnode
          · exact (h.of_conforms heffective heq).2
        obtain ⟨id', hid'⟩ :=
          hs.exists_idOf? h (ht.conforms_of_node? hm).known hplain hflat hdropped
        simp only [Config.isDropped, hdropped, decide_false]
        refine Ends.map ((ends_element hs.finished hj hm hid' _).imp ?_)
        rintro d s' ⟨rfl, hstands, rfl⟩
        have hancestor : id ∈ s'.ancestry d.entity :=
          (hs.finished.consistent.mem_ancestry_iff hid').mpr ⟨effective, heffective, hid⟩
        refine ⟨rfl, ?_⟩
        intro x hx
        cases hx
        exact ⟨hstands, hancestor⟩

/-- What an element lists as a relation can be read from its node: it is single or a list as
the relation says, and every child in it can be seen as an element. -/
theorem exists_filling (he : v.Stands s e) {r : Relation} (hr : .relation r ∈ s.features e.entity) :
    ∃ f, v.filling e r.name = .ok f ∧ .ofArity f.arity = r.multiplicity ∧
      ∀ c ∈ f.toList, Ends (v.childElement e r.name c) s
        (fun x s' => s' = s ∧ ∀ d ∈ x, v.Stands s d ∧ r.target ∈ s.ancestry d.entity)
        fun _ _ => False := by
  obtain ⟨n, hn, hid⟩ := he
  obtain ⟨k, hk, hconforms, slot, hslot, effective, hemits, htarget⟩ :=
    hs.finished.exists_slot hid hr
  obtain ⟨hname, hmultiplicity, target, hitem, helides, hnode⟩ := hemits.of_relation
  rw [Config.featureName_eq h.plain] at hname
  have hoffered : slot ∈ v.blueprint.grammar.offered n.kind :=
    Grammar.mem_offered_iff.mpr ⟨k, hk, hconforms, hslot⟩
  obtain ⟨f, hf, harity, hfits⟩ :=
    (ht.conforms_of_node? hn).filling_eq_ok h ht.built.ordered hn hoffered hitem
  refine ⟨f, hname ▸ hf, by rw [harity, hmultiplicity], fun c hc => ?_⟩
  exact ends_childElement hs h ht e r.name (hitem ▸ hfits c hc) helides hnode htarget

theorem ends_child?_of_relation (he : v.Stands s e) {r : Relation}
    (hr : .relation r ∈ s.features e.entity) (hone : r.multiplicity.isSingle = true) :
    Ends (v.child? e r.name) s
      (fun x s' => s' = s ∧ ∀ d ∈ x, v.Stands s d ∧ r.target ∈ s.ancestry d.entity)
      fun _ _ => False := by
  obtain ⟨f, hf, harity, hchildren⟩ := exists_filling hs h ht he hr
  unfold child?
  refine Ends.bind_get ?_
  rw [relation_eq_ok_iff.mpr ⟨hr, rfl, hone⟩]
  refine Ends.bind_ok ?_
  unfold fillingOne
  rw [hf]
  cases f with
  | many cs =>
      rw [← harity] at hone
      cases hone
  | one c =>
      refine Ends.bind_ok ?_
      cases c with
      | none => exact Ends.pure ⟨rfl, by simp⟩
      | some c => exact hchildren c (by simp [Filling.toList])

theorem ends_children_of_relation (he : v.Stands s e) {r : Relation}
    (hr : .relation r ∈ s.features e.entity) (hmany : r.multiplicity.isSingle = false) :
    Ends (v.children e r.name) s
      (fun xs s' => s' = s ∧ ∀ d ∈ xs, v.Stands s d ∧ r.target ∈ s.ancestry d.entity)
      fun _ _ => False := by
  obtain ⟨f, hf, harity, hchildren⟩ := exists_filling hs h ht he hr
  unfold children
  refine Ends.bind_get ?_
  rw [relation_eq_ok_iff.mpr ⟨hr, rfl, hmany⟩]
  refine Ends.bind_ok ?_
  unfold fillingMany
  rw [hf]
  cases f with
  | one c =>
      rw [← harity] at hmany
      cases hmany
  | many cs =>
      refine Ends.bind_ok ?_
      exact Ends.filterMapM hchildren

theorem ends_related_of_relation (he : v.Stands s e) {r : Relation}
    (hr : .relation r ∈ s.features e.entity) :
    Ends (v.related e r) s
      (fun xs s' => s' = s ∧ ∀ d ∈ xs, v.Stands s d ∧ r.target ∈ s.ancestry d.entity)
      fun _ _ => False := by
  unfold related
  by_cases hone : r.multiplicity.isSingle = true
  · rw [if_pos hone]
    refine Ends.map ((ends_child?_of_relation hs h ht he hr hone).imp ?_)
    intro x s' hx
    exact ⟨hx.1, fun d hd => hx.2 d (Option.mem_toList.mp hd)⟩
  · rw [if_neg hone]
    exact ends_children_of_relation hs h ht he hr (Bool.eq_false_iff.mpr hone)

theorem ends_allChildren (he : v.Stands s e) :
    Ends (v.allChildren e) s
      (fun xs s' => s' = s ∧ ∀ d ∈ xs, v.Stands s d ∧
        ∃ r, .relation r ∈ s.features e.entity ∧ r.target ∈ s.ancestry d.entity)
      fun _ _ => False := by
  refine Ends.bind_get (Ends.flatMapM fun r hr => ?_)
  have hlisted : .relation r ∈ s.features e.entity := by
    obtain ⟨f, hf, hfr⟩ := List.mem_filterMap.mp hr
    cases f <;> cases hfr
    exact hf
  refine (ends_related_of_relation hs h ht he hlisted).imp ?_
  intro xs s' hxs
  exact ⟨hxs.1, fun d hd => ⟨(hxs.2 d hd).1, r, hlisted, (hxs.2 d hd).2⟩⟩

/-! ### Whatever is asked -/

/-- Seeing a node as an element changes nothing, even if it fails. -/
theorem ends_element_anyway (i : NodeId) (above : List Placement) :
    Ends (v.element i above) s (fun d s' => s' = s ∧ v.Stands s d) fun _ s' => s' = s := by
  cases hj : v.blueprint.elide v.tree i with
  | error err =>
      unfold element
      rw [hj]
      exact Ends.bind_error rfl
  | ok j =>
      obtain ⟨-, n, hn, hplain⟩ := Blueprint.elide_eq_ok_iff.mp hj
      by_cases hmappable :
          n.kind ∉ v.blueprint.config.flattened ∧ n.kind ∉ v.blueprint.config.dropped
      · obtain ⟨id, hid⟩ :=
          hs.exists_idOf? h (ht.conforms_of_node? hn).known hplain hmappable.1 hmappable.2
        exact (ends_element hs.finished hj hn hid above).mono (fun d s' hd => ⟨hd.1, hd.2.1⟩)
          fun _ _ hf => hf.elim
      · -- a kind that is passed over is refused an entity
        unfold element
        rw [hj]
        refine Ends.bind_ok ?_
        rw [Tree.kind_eq_ok hn]
        refine Ends.bind_ok ?_
        refine Ends.bind (P := fun _ _ => False)
          ((hs.finished.ends_entityId n.kind).mono (fun id s' hid => ?_) fun err s' herr => herr.1)
          fun _ _ hf => hf.elim
        obtain ⟨x, hx, hkind⟩ := hid.1.consistent.idOf?_eq_some_iff.mp hid.2.2
        exact hmappable (hkind ▸ (hid.1.consistent.mappable hx).2)

theorem ends_root : Ends v.root s (fun d s' => s' = s ∧ v.Stands s d) fun _ s' => s' = s := by
  unfold root
  cases v.tree.root with
  | none => exact Ends.throw rfl
  | some i => exact ends_element_anyway hs h ht i []

/-- Asking for a relation that is not listed, or in the wrong way, changes nothing either. -/
theorem ends_child? (he : v.Stands s e) (name : String) :
    Ends (v.child? e name) s (fun x s' => s' = s ∧ ∀ d ∈ x, v.Stands s d) fun _ s' => s' = s := by
  cases hrel : v.relation s e name true with
  | error err =>
      refine Ends.bind_get ?_
      rw [hrel]
      exact Ends.bind_error rfl
  | ok r =>
      obtain ⟨hr, rfl, hone⟩ := relation_eq_ok_iff.mp hrel
      exact (ends_child?_of_relation hs h ht he hr hone).mono
        (fun x s' hx => ⟨hx.1, fun d hd => (hx.2 d hd).1⟩) fun _ _ hf => hf.elim

theorem ends_children (he : v.Stands s e) (name : String) :
    Ends (v.children e name) s (fun xs s' => s' = s ∧ ∀ d ∈ xs, v.Stands s d)
      fun _ s' => s' = s := by
  cases hrel : v.relation s e name false with
  | error err =>
      refine Ends.bind_get ?_
      rw [hrel]
      exact Ends.bind_error rfl
  | ok r =>
      obtain ⟨hr, rfl, hmany⟩ := relation_eq_ok_iff.mp hrel
      exact (ends_children_of_relation hs h ht he hr hmany).mono
        (fun xs s' hxs => ⟨hxs.1, fun d hd => (hxs.2 d hd).1⟩) fun _ _ hf => hf.elim

omit hs h ht

/-- What can be asked of a document while it is looked through. -/
inductive Query where
  | root
  | child (e : Element) (name : String)
  | children (e : Element) (name : String)
  | allChildren (e : Element)

/-- The element that a query is about. -/
def Query.subject? : Query → Option Element
  | root => none
  | child e _ => some e
  | children e _ => some e
  | allChildren e => some e

/-- The elements that a query gives. -/
def answer (v : View) : Query → Deriving (List Element)
  | .root => (fun e => [e]) <$> v.root
  | .child e name => Option.toList <$> v.child? e name
  | .children e name => v.children e name
  | .allChildren e => v.allChildren e

/-- Looking through a document, beginning with the schema `s`: the schema as it is now and the
elements seen so far, of which each may be asked about at any time. -/
inductive Explores (v : View) (s : Schema) : Schema → List Element → Prop
  | start : Explores v s s []
  | answered {s₁ s₂ : Schema} {seen found : List Element} {q : Query}
      (before : Explores v s s₁ seen) (subject : ∀ e ∈ q.subject?, e ∈ seen)
      (answer : v.answer q s₁ = .ok found s₂) : Explores v s s₂ (found ++ seen)
  | refused {s₁ s₂ : Schema} {seen : List Element} {q : Query} {err : Error}
      (before : Explores v s s₁ seen) (subject : ∀ e ∈ q.subject?, e ∈ seen)
      (answer : v.answer q s₁ = .error err s₂) : Explores v s s₂ seen

/-- All relations that an element lists can be followed without a change to the schema, and
what they lead to are elements of their targets. -/
structure Readable (v : View) (s : Schema) (e : Element) : Prop where
  single : ∀ r, .relation r ∈ s.features e.entity → r.multiplicity = .one →
    ∃ c, v.child? e r.name s = .ok c s ∧ ∀ d ∈ c, r.target ∈ s.ancestry d.entity
  multi : ∀ r, .relation r ∈ s.features e.entity → r.multiplicity = .many →
    ∃ cs, v.children e r.name s = .ok cs s ∧ ∀ d ∈ cs, r.target ∈ s.ancestry d.entity
  all : ∃ cs, v.allChildren e s = .ok cs s ∧ ∀ d ∈ cs,
    ∃ r, .relation r ∈ s.features e.entity ∧ r.target ∈ s.ancestry d.entity

include hs h ht

theorem Stands.readable (he : v.Stands s e) : v.Readable s e where
  single r hr hone := by
    have hread := ends_child?_of_relation hs h ht he hr (by rw [hone]; rfl)
    obtain ⟨c, hc, hd⟩ := hread.exists_ok
    exact ⟨c, hc, fun d hmem => (hd d hmem).2⟩
  multi r hr hmany := by
    have hread := ends_children_of_relation hs h ht he hr (by rw [hmany]; rfl)
    obtain ⟨cs, hcs, hd⟩ := hread.exists_ok
    exact ⟨cs, hcs, fun d hmem => (hd d hmem).2⟩
  all := by
    obtain ⟨cs, hcs, hd⟩ := (ends_allChildren hs h ht he).exists_ok
    exact ⟨cs, hcs, fun d hmem => (hd d hmem).2⟩

/-- One query about an element that stands for a node gives only such elements. -/
theorem ends_answer (q : Query) (hq : ∀ e ∈ q.subject?, v.Stands s e) :
    Ends (v.answer q) s (fun found s' => s' = s ∧ ∀ d ∈ found, v.Stands s d)
      fun _ s' => s' = s := by
  cases q with
  | root =>
      refine Ends.map ((ends_root hs h ht).imp ?_)
      intro d s' hd
      refine ⟨hd.1, ?_⟩
      intro x hx
      rw [List.mem_singleton] at hx
      exact hx ▸ hd.2
  | child e name =>
      refine Ends.map ((ends_child? hs h ht (hq e rfl) name).imp ?_)
      intro x s' hx
      refine ⟨hx.1, ?_⟩
      intro d hd
      exact hx.2 d (Option.mem_toList.mp hd)
  | children e name => exact ends_children hs h ht (hq e rfl) name
  | allChildren e =>
      exact (ends_allChildren hs h ht (hq e rfl)).mono
        (fun xs s' hxs => ⟨hxs.1, fun d hd => (hxs.2 d hd).1⟩) fun _ _ hf => hf.elim

/-- All elements that are ever seen stand for nodes, and the schema stays as it was. -/
theorem Explores.stands {s' : Schema} {seen : List Element} (hexplores : v.Explores s s' seen) :
    s' = s ∧ ∀ e ∈ seen, v.Stands s e := by
  induction hexplores with
  | start => exact ⟨rfl, by simp⟩
  | @answered s₁ s₂ seen found q _ hq hanswer ih =>
      obtain ⟨rfl, hseen⟩ := ih
      have hsubject : ∀ e ∈ q.subject?, v.Stands s₁ e := fun e he => hseen e (hq e he)
      obtain ⟨hs', hfound⟩ := (ends_answer hs h ht q hsubject).of_ok hanswer
      refine ⟨hs', ?_⟩
      intro e he
      rcases List.mem_append.mp he with he | he
      · exact hfound e he
      · exact hseen e he
  | @refused s₁ s₂ seen q _ _ hq hanswer ih =>
      obtain ⟨rfl, hseen⟩ := ih
      have hsubject : ∀ e ∈ q.subject?, v.Stands s₁ e := fun e he => hseen e (hq e he)
      have hs' := (ends_answer hs h ht q hsubject).of_error hanswer
      exact ⟨hs', hseen⟩

omit hs h ht

/--
**Well-typed trees can be read without errors.**  Once all kinds have their entities, a
document that the grammar describes can be looked through in any order.  Every relation of
every element that comes up can be followed in the way of its multiplicity, all of them can
be followed at once, and the entities of what they lead to are their targets or derive from
them.
-/
theorem wellTyped_readable (v : View) (requests : List Request) {n : Nat} {s s' : Schema}
    (hall : v.blueprint.deriveAll (v.blueprint.served requests) = .ok n s)
    (hdisciplined : v.blueprint.Disciplined) (htyped : v.blueprint.WellTyped v.tree)
    {seen : List Element} (hexplores : v.Explores s s' seen) {e : Element} (he : e ∈ seen) :
    s' = s ∧ v.Readable s' e := by
  have hsaturated := saturated_of_deriveAll hall
  obtain ⟨rfl, hseen⟩ := hexplores.stands hsaturated hdisciplined htyped
  exact ⟨rfl, (hseen e he).readable hsaturated hdisciplined htyped⟩

/-- A block of one call, which has another call for its argument. -/
def callEvents : List Event :=
  [.start "Block", .start "Call", .token 2 "f", .start "Arg", .start "Expr",
    .label (.assign "call"), .start "Call", .token 2 "g", .finish, .finish, .token 3 ",", .finish,
    .finish, .finish]

def callView : View := ⟨calls, 0, (callEvents.foldl Builder.feed .initial).tree⟩

def callSchema : Schema := calls.served [.deriveAll]

def block : Element := ⟨0, ⟨0⟩, ⟨0⟩, []⟩

/-- The outer call, reached from the block. -/
def outerCall : Element := ⟨0, ⟨1⟩, ⟨2⟩, [block.placement]⟩

/-- From the outer call it goes on to an expression, past the transparent argument. -/
theorem wellTyped_readable_call :
    callView.Explores callSchema callSchema [outerCall, block] ∧
      callView.Readable callSchema outerCall ∧
      ∃ cs, callView.children outerCall "arg" callSchema = .ok cs callSchema ∧
        ∀ d ∈ cs, ⟨3⟩ ∈ callSchema.ancestry d.entity := by
  have hall : calls.deriveAll (calls.served []) = .ok 4 callSchema := by decide +kernel
  have hdisciplined : calls.Disciplined := by constructor <;> decide +kernel
  have htyped : calls.WellTyped callView.tree := by
    refine ⟨⟨callEvents, by decide +kernel⟩, fun n hn => ?_⟩
    constructor <;> revert n <;> decide +kernel
  have hroot : callView.answer .root callSchema = .ok [block] callSchema := by decide +kernel
  have hcalls : callView.answer (.children block "stmt") callSchema
      = .ok [outerCall] callSchema := by decide +kernel
  have hexplores : callView.Explores callSchema callSchema [outerCall, block] := by
    have hfirst : callView.Explores callSchema callSchema ([block] ++ []) :=
      .answered .start (by simp [Query.subject?]) hroot
    exact .answered hfirst (by simp [Query.subject?]) hcalls
  have hreadable : callView.Readable callSchema outerCall :=
    (wellTyped_readable callView [] hall hdisciplined htyped hexplores (by simp)).2
  have harg : .relation ⟨"arg", .containment, .many, ⟨2⟩, ⟨3⟩⟩
      ∈ callSchema.features outerCall.entity := by decide +kernel
  have hread := hreadable.multi _ harg rfl
  exact ⟨hexplores, hreadable, hread⟩

end View

end TreeSchema
