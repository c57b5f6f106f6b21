/-
What the values of an element stand for.

A getter first looks up what the node has in a slot, and each value that it gives stands for
one of the children found there, in their order.  A relation leaves out the children of a
dropped kind, and a transparent child is seen as the node that stands in for it.  So the number
of a value is that of a child, by which its place in the source can be found again.
-/
import TreeSchema.Proofs.Reading

namespace TreeSchema

/-- A node that is kept is the one that is seen, and it is in the tree. -/
theorem Blueprint.elide_of_kept? {b : Blueprint} {t : Tree} {i j : NodeId}
    (h : b.kept? t i = .ok (some j)) :
    b.elide t i = .ok j ∧ ∃ n, t.node? j = some n := by
  obtain ⟨k, hk, h⟩ := bind_eq_ok_iff.mp h
  obtain ⟨kind, hkind, h⟩ := bind_eq_ok_iff.mp h
  by_cases hdropped : b.config.isDropped kind = true
  · rw [if_pos hdropped] at h
    cases h
  · rw [if_neg hdropped] at h
    cases h
    obtain ⟨n, hn, -⟩ := map_eq_ok_iff.mp hkind
    exact ⟨hk, n, Tree.node_eq_ok_iff.mp hn⟩

namespace View

variable {v : View} {s : Schema} {e : Element} {name : String}

/-! ### What there is -/

/-- The values that the getter of a property gives. -/
def given (v : View) (s : Schema) (e : Element) (p : Property) : Except Error (List Value) :=
  if p.multiplicity.isSingle then Option.toList <$> v.value? s e p.name
  else v.values s e p.name

/-- The number of values that the getter of a feature gives, if it succeeds. -/
def count? (v : View) (s : Schema) (e : Element) : Feature → Option Nat
  | .property p => (v.given s e p).toOption.map List.length
  | .relation r =>
    match v.related e r s with
    | .ok ds _ => some ds.length
    | .error .. => none

theorem exists_of_count?_property {p : Property} {n : Nat}
    (h : v.count? s e (.property p) = some n) :
    ∃ vals, v.given s e p = .ok vals ∧ vals.length = n := by
  obtain ⟨vals, hvals, hn⟩ := Option.map_eq_some_iff.mp h
  exact ⟨vals, toOption_eq_some_iff.mp hvals, hn⟩

theorem exists_of_count?_relation {r : Relation} {n : Nat}
    (h : v.count? s e (.relation r) = some n) :
    ∃ ds s', v.related e r s = .ok ds s' ∧ ds.length = n := by
  simp only [count?] at h
  split at h
  · next ds s' hds => exact ⟨ds, s', hds, Option.some.inj h⟩
  · cases h

/-- Whether a child becomes an element: a node, and not one that gives way to a dropped one. -/
def keeps (v : View) : Child → Bool
  | .node id => match v.blueprint.kept? v.tree id with
    | .ok (some _) => true
    | _ => false
  | .token _ => false

/-- The children behind a feature. -/
def held (v : View) (e : Element) (f : Feature) : List Child :=
  ((v.filling e f.name).toOption.map Filling.toList).getD []

/-- The children that the values of a feature stand for. -/
def present (v : View) (e : Element) (f : Feature) : List Child :=
  match f with
  | .relation _ => (v.held e f).filter v.keeps
  | .property _ => if isPositional f.name then [] else v.held e f

/-- An element is what a child is seen as: a node that is kept, or what stands in for it. -/
def SeenAs (v : View) (c : Child) (d : Element) : Prop :=
  ∃ id, c = .node id ∧ v.blueprint.kept? v.tree id = .ok (some d.node)

/-- The values that the getter of a feature gives stand for these children, one by one.  There
is no child behind a source position. -/
inductive ReadFrom (v : View) (s : Schema) (e : Element) : Feature → List Child → Prop
  | position (p : Position) : ReadFrom v s e (.property p.toProperty) []
  | property {p : Property} {vals : List Value} {cs : List Child} (h : v.given s e p = .ok vals)
      (hvals : List.Forall₂ (fun c val => v.tree.childValue c = .ok val) cs vals) :
      ReadFrom v s e (.property p) cs
  | relation {r : Relation} {ds : List Element} {s' : Schema} {cs : List Child}
      (h : v.related e r s = .ok ds s') (hds : List.Forall₂ v.SeenAs cs ds) :
      ReadFrom v s e (.relation r) cs

/-! ### What a getter has found -/

theorem property_eq_ok {single : Bool} {p : Property}
    (h : v.property s e name single = .ok p) : p.name = name := by
  obtain ⟨f, hf, h⟩ := bind_eq_ok_iff.mp h
  obtain ⟨-, hname⟩ := feature_eq_ok_iff.mp hf
  cases f with
  | relation r =>
      obtain ⟨_, -, h⟩ := bind_eq_ok_iff.mp h
      cases h
  | property q =>
      by_cases hsingle : q.multiplicity.isSingle = single
      · simp only [if_pos hsingle] at h
        cases h
        exact hname
      · simp only [if_neg hsingle] at h
        obtain ⟨_, -, h⟩ := bind_eq_ok_iff.mp h
        cases h

theorem fillingOne_eq_ok {c : Option Child} (h : v.fillingOne e name = .ok c) :
    v.filling e name = .ok (.one c) := by
  obtain ⟨x, hx, h⟩ := bind_eq_ok_iff.mp h
  cases x with
  | one c' => cases h; exact hx
  | many cs =>
      obtain ⟨_, -, h⟩ := bind_eq_ok_iff.mp h
      cases h

theorem fillingMany_eq_ok {cs : List Child} (h : v.fillingMany e name = .ok cs) :
    v.filling e name = .ok (.many cs) := by
  obtain ⟨x, hx, h⟩ := bind_eq_ok_iff.mp h
  cases x with
  | many cs' => cases h; exact hx
  | one c =>
      obtain ⟨_, -, h⟩ := bind_eq_ok_iff.mp h
      cases h

theorem present_property {p : Property} {x : Filling} (hpos : isPositional p.name = false)
    (h : v.filling e p.name = .ok x) : v.present e (.property p) = x.toList := by
  rw [present, if_neg (by rw [Feature.name, hpos]; exact Bool.false_ne_true), held, Feature.name, h]
  rfl

theorem present_relation {r : Relation} {x : Filling} (h : v.filling e r.name = .ok x) :
    v.present e (.relation r) = x.toList.filter v.keeps := by
  rw [present, held, Feature.name, h]
  rfl

/-! ### Properties -/

theorem value?_eq_ok {x : Option Value} (h : v.value? s e name = .ok x)
    (hpos : isPositional name = false) :
    ∃ c, v.filling e name = .ok (.one c) ∧
      List.Forall₂ (fun c val => v.tree.childValue c = .ok val) c.toList x.toList := by
  obtain ⟨p, hp, h⟩ := bind_eq_ok_iff.mp h
  have hof : Position.ofName? p.name = none := by
    rw [property_eq_ok hp]
    exact Option.isNone_iff_eq_none.mp (Option.isSome_eq_false_iff.mp hpos)
  simp only [hof] at h
  obtain ⟨c, hc, h⟩ := bind_eq_ok_iff.mp h
  rw [property_eq_ok hp] at hc
  refine ⟨c, fillingOne_eq_ok hc, ?_⟩
  cases c with
  | none =>
      cases h
      exact .nil
  | some c =>
      obtain ⟨val, hval, rfl⟩ := map_eq_ok_iff.mp h
      exact .cons hval .nil

/-- The values of a property are those of the children behind it. -/
theorem given_eq_ok {p : Property} {vals : List Value} (h : v.given s e p = .ok vals)
    (hpos : isPositional p.name = false) :
    ∃ x, v.filling e p.name = .ok x ∧
      List.Forall₂ (fun c val => v.tree.childValue c = .ok val) x.toList vals := by
  unfold given at h
  by_cases hone : p.multiplicity.isSingle = true
  · rw [if_pos hone] at h
    obtain ⟨x, hx, rfl⟩ := map_eq_ok_iff.mp h
    obtain ⟨c, hc, hvals⟩ := value?_eq_ok hx hpos
    exact ⟨.one c, hc, hvals⟩
  · rw [if_neg hone] at h
    obtain ⟨q, hq, h⟩ := bind_eq_ok_iff.mp h
    obtain ⟨cs, hcs, h⟩ := bind_eq_ok_iff.mp h
    rw [property_eq_ok hq] at hcs
    exact ⟨.many cs, fillingMany_eq_ok hcs, mapM_eq_ok h⟩

/-- A source position has one value, and there is no child behind it. -/
theorem count?_position {p : Position} {n : Nat}
    (h : v.count? s e (.property p.toProperty) = some n) : n = 1 := by
  obtain ⟨vals, hgiven, rfl⟩ := exists_of_count?_property h
  obtain ⟨x, hx, rfl⟩ := map_eq_ok_iff.mp hgiven
  obtain ⟨q, hq, h⟩ := bind_eq_ok_iff.mp hx
  have hof : Position.ofName? q.name = some p := by
    rw [property_eq_ok hq]
    cases p <;> rfl
  simp only [hof] at h
  obtain ⟨_, -, h⟩ := bind_eq_ok_iff.mp h
  cases h
  rfl

/-! ### Relations -/

theorem keeps_node {id : NodeId} {k : Option NodeId} (h : v.blueprint.kept? v.tree id = .ok k) :
    v.keeps (.node id) = k.isSome := by
  rw [keeps, h]
  cases k <;> rfl

theorem ends_elementBelow_node {i j : NodeId} (h : v.blueprint.elide v.tree i = .ok j) :
    Ends (v.elementBelow e i) s (fun d _ => d.node = j) fun _ _ => True := by
  unfold elementBelow element
  rw [h]
  refine Ends.bind_ok (Ends.bind_lift (fun kind _ => ?_) fun _ _ => trivial)
  exact Ends.bind Ends.any fun _ _ _ => Ends.pure rfl

/-- A child of a relation that can be followed is a node, and what it is seen as is the node
that is kept in its place. -/
theorem ends_childElement_kept (c : Child) (s : Schema) :
    Ends (v.childElement e name c) s
      (fun x _ => ∃ id, c = .node id ∧
        v.blueprint.kept? v.tree id = .ok (x.map Element.node)) fun _ _ => True := by
  unfold childElement
  refine Ends.bind_lift (fun id hid => ?_) fun _ _ => trivial
  cases c with
  | token x =>
      obtain ⟨_, -, h⟩ := bind_eq_ok_iff.mp hid
      cases h
  | node i =>
      obtain rfl : i = id := by cases hid; rfl
      refine Ends.bind_lift (fun k hk => ?_) fun _ _ => trivial
      cases k with
      | none => exact Ends.pure ⟨i, rfl, hk⟩
      | some j =>
          have helide := (Blueprint.elide_of_kept? hk).1
          refine Ends.map ((ends_elementBelow_node helide).imp fun d s' hd => ?_)
          exact ⟨i, rfl, by rw [hk, Option.map_some, hd]⟩

/-- Where all children are nodes, those that are not dropped are seen as something. -/
theorem forall₂_seenAs {cs : List Child} {xs : List (Option Element)}
    (h : List.Forall₂ (fun c x => ∃ id, c = .node id ∧
      v.blueprint.kept? v.tree id = .ok (x.map Element.node)) cs xs) :
    (∀ c ∈ cs, ∃ id k, c = .node id ∧ v.blueprint.kept? v.tree id = .ok k) ∧
      List.Forall₂ v.SeenAs (cs.filter v.keeps) (xs.filterMap id) := by
  induction h with
  | nil => exact ⟨by simp, .nil⟩
  | @cons c x cs xs hc _ ih =>
      obtain ⟨id, rfl, hk⟩ := hc
      refine ⟨List.forall_mem_cons.mpr ⟨⟨id, _, rfl, hk⟩, ih.1⟩, ?_⟩
      cases x with
      | none =>
          rw [List.filter_cons_of_neg (by simp [keeps_node hk])]
          exact ih.2
      | some d =>
          rw [List.filter_cons_of_pos (keeps_node hk)]
          exact .cons ⟨id, rfl, hk⟩ ih.2

/-- A relation that can be followed has nodes only, and leads to what those are seen as that
are not dropped. -/
theorem ends_related_kept (r : Relation) :
    Ends (v.related e r) s
      (fun ds _ => ∃ x, v.filling e r.name = .ok x ∧
        (∀ c ∈ x.toList, ∃ id k, c = .node id ∧ v.blueprint.kept? v.tree id = .ok k) ∧
        List.Forall₂ v.SeenAs (x.toList.filter v.keeps) ds) fun _ _ => True := by
  unfold related
  by_cases hone : r.multiplicity.isSingle = true
  · rw [if_pos hone]
    refine Ends.map ?_
    unfold View.child?
    refine Ends.bind_get (Ends.bind_lift (fun q hq => ?_) fun _ _ => trivial)
    obtain ⟨-, hname, -⟩ := relation_eq_ok_iff.mp hq
    rw [hname]
    refine Ends.bind_lift (fun c hc => ?_) fun _ _ => trivial
    cases c with
    | none => exact Ends.pure ⟨.one none, fillingOne_eq_ok hc, forall₂_seenAs .nil⟩
    | some c =>
        refine (ends_childElement_kept c s).imp fun x s' hx => ?_
        have hseen := forall₂_seenAs (.cons hx .nil)
        refine ⟨.one (some c), fillingOne_eq_ok hc, hseen.1, ?_⟩
        cases x <;> exact hseen.2
  · rw [if_neg hone]
    unfold View.children
    refine Ends.bind_get (Ends.bind_lift (fun q hq => ?_) fun _ _ => trivial)
    obtain ⟨-, hname, -⟩ := relation_eq_ok_iff.mp hq
    rw [hname]
    refine Ends.bind_lift (fun cs hcs => ?_) fun _ _ => trivial
    refine (Ends.filterMapM_forall₂ (fun c _ s => ends_childElement_kept c s) s).imp ?_
    rintro ds s' ⟨xs, hxs, rfl⟩
    exact ⟨.many cs, fillingMany_eq_ok hcs, forall₂_seenAs hxs⟩

/-! ### Any feature -/

/-- The children that are present are those that the getter has read. -/
theorem readFrom_present {f : Feature} {n : Nat} (h : v.count? s e f = some n)
    (hcomputed : isPositional f.name = true → ∃ p : Position, f = .property p.toProperty) :
    v.ReadFrom s e f (v.present e f) := by
  cases f with
  | property p =>
      obtain ⟨vals, hgiven, -⟩ := exists_of_count?_property h
      cases hpos : isPositional p.name with
      | true =>
          obtain ⟨q, hq⟩ := hcomputed hpos
          rw [hq, present, if_pos (hq ▸ hpos)]
          exact .position q
      | false =>
          obtain ⟨x, hx, hread⟩ := given_eq_ok hgiven hpos
          exact .property hgiven (present_property hpos hx ▸ hread)
  | relation r =>
      obtain ⟨ds, s', hds, -⟩ := exists_of_count?_relation h
      obtain ⟨x, hx, -, hseen⟩ := (ends_related_kept r).of_ok hds
      exact .relation hds (present_relation hx ▸ hseen)

end View

end TreeSchema
