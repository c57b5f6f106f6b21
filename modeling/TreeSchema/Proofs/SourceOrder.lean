/-
The values of an element in source order.

What an element lists as its values is worked out a second time, apart from the getters: for
each feature the children behind it, those of a dropped kind left out, then the span of each,
then a sort.  The two agree.  A getter that succeeds has found a filling of the right shape
and nothing but nodes in a relation, and each of its values stands for one of those children,
so the numbers of the references are those of the values.

The sort is stable, so children that start at one place, and those without a place, keep the
order in which they were listed.

Only one thing can go wrong that no getter notices: a relation does not ask where its nodes
begin and end, and these tokens may be missing from the tree.
-/
import TreeSchema.Element.Order
import TreeSchema.Proofs.Values

namespace TreeSchema

/-! ### Sorting keeps the order of equals -/

/-- Entries that neither comes after the other stay in the order in which they were. -/
theorem pairwise_mergeSort_stable {α : Type} {le : α → α → Bool} {R : α → α → Prop} {l : List α}
    (htrans : ∀ a c d, le a c = true → le c d = true → le a d = true)
    (htotal : ∀ a c, (le a c || le c a) = true) (h : l.Pairwise R) :
    (l.mergeSort le).Pairwise fun a c => le a c = true ∧ (le c a = true → R a c) := by
  rw [← List.mergeSort_zipIdx, List.pairwise_map]
  have hperm := List.mergeSort_perm l.zipIdx (List.zipIdxLE le)
  have hsorted := List.pairwise_mergeSort (List.zipIdxLE_trans htrans)
    (List.zipIdxLE_total htotal) l.zipIdx
  have hdistinct : ((l.zipIdx.mergeSort (List.zipIdxLE le)).map Prod.snd).Nodup := by
    rw [(hperm.map Prod.snd).nodup_iff, List.zipIdx_map_snd]
    exact List.nodup_range'
  refine (hsorted.and (List.pairwise_map.mp hdistinct)).imp_of_mem ?_
  intro x y hx hy hxy
  obtain ⟨hle, hne⟩ := hxy
  have hx' := List.mem_zipIdx_iff_getElem?.mp (hperm.mem_iff.mp hx)
  have hy' := List.mem_zipIdx_iff_getElem?.mp (hperm.mem_iff.mp hy)
  unfold List.zipIdxLE at hle
  split at hle
  · next hlexy =>
    refine ⟨hlexy, fun hleyx => ?_⟩
    rw [if_pos hleyx] at hle
    have hlt : x.2 < y.2 := Nat.lt_of_le_of_ne (of_decide_eq_true hle) hne
    obtain ⟨hix, hgx⟩ := List.getElem?_eq_some_iff.mp hx'
    obtain ⟨hiy, hgy⟩ := List.getElem?_eq_some_iff.mp hy'
    have := List.pairwise_iff_getElem.mp h x.2 y.2 hix hiy hlt
    rwa [hgx, hgy] at this
  · cases hle

/-! ### Spans -/

namespace Tree

variable {t : Tree} {err : Error}

/-- A child that can be read as a value has the span that the value says. -/
theorem childSpan_of_childValue {c : Child} {x : Value} (h : t.childValue c = .ok x) :
    t.childSpan c = .ok x.span? := by
  cases c with
  | token id =>
      obtain ⟨y, hy, h⟩ := bind_eq_ok_iff.mp h
      cases h
      exact bind_eq_ok_iff.mpr ⟨y, hy, rfl⟩
  | node id =>
      obtain ⟨_, hx, h⟩ := bind_eq_ok_iff.mp h
      cases h
      obtain ⟨_, -, hx⟩ := bind_eq_ok_iff.mp hx
      obtain ⟨_, -, hx⟩ := bind_eq_ok_iff.mp hx
      obtain ⟨span, hspan, hx⟩ := bind_eq_ok_iff.mp hx
      cases hx
      exact hspan

theorem optToken_eq_error {y : Option TokenId} (h : t.optToken y = .error err) :
    ∃ x, y = some x ∧ t.token x = .error err := by
  cases y with
  | none => cases h
  | some x => exact ⟨x, rfl, map_eq_error_iff.mp h⟩

/-- Only a token that is not in the tree keeps the span of a node from being known. -/
theorem nodeSpan_eq_error {id : NodeId} {n : Node} (hn : t.node? id = some n)
    (h : t.nodeSpan id = .error err) :
    ∃ x, (n.start = some x ∨ n.stop = some x) ∧ t.token x = .error err := by
  rcases bind_eq_error_iff.mp h with h | ⟨first, -, h⟩
  · rw [firstToken, node_eq_ok_iff.mpr hn] at h
    obtain ⟨x, hx, herr⟩ := optToken_eq_error h
    exact ⟨x, .inl hx, herr⟩
  · cases first with
    | none => cases h
    | some first =>
        rcases bind_eq_error_iff.mp h with h | ⟨last, -, h⟩
        · rw [lastToken, node_eq_ok_iff.mpr hn] at h
          obtain ⟨x, hx, herr⟩ := optToken_eq_error h
          exact ⟨x, .inr hx, herr⟩
        · cases last <;> cases h

end Tree

/-- A node of which it is known whether it is dropped is in the tree. -/
theorem Blueprint.exists_node_of_kept? {b : Blueprint} {t : Tree} {id : NodeId}
    {k : Option NodeId} (h : b.kept? t id = .ok k) : ∃ n, t.node? id = some n := by
  obtain ⟨j, hj, -⟩ := bind_eq_ok_iff.mp h
  unfold elide elideFrom at hj
  obtain ⟨n, hn, -⟩ := bind_eq_ok_iff.mp hj
  exact ⟨n, Tree.node_eq_ok_iff.mp hn⟩

namespace View

variable {v : View} {s : Schema} {e : Element}

/-- Where the child behind a value starts, if there is one and it has a place. -/
def startOf? (v : View) (e : Element) (r : ValueReference) : Option Nat :=
  (v.present e r.feature)[r.index]?.bind fun c =>
    (v.tree.childSpan c).toOption.join.map Span.start

/-- The features of an element in the order in which their values are listed: the relations and
then the properties. -/
def encountered (s : Schema) (e : Element) : List Feature :=
  ((s.features e.entity).filterMap Feature.relation?).map .relation ++
    ((s.features e.entity).filterMap Feature.property?).map .property

/-- One value is listed before another: its feature is, or it is an earlier one of the same
feature. -/
def ListedBefore (s : Schema) (e : Element) (a c : ValueReference) : Prop :=
  (encountered s e).idxOf a.feature < (encountered s e).idxOf c.feature ∨
    a.feature = c.feature ∧ a.index < c.index

/-- One value comes before another in the source: it has no place and the other has, or it
starts earlier, or they do not differ in that and it is listed earlier. -/
inductive Precedes (v : View) (s : Schema) (e : Element) (a c : ValueReference) : Prop
  | unplaced (ha : v.startOf? e a = none) (hc : v.startOf? e c ≠ none)
  | start {i j : Nat} (ha : v.startOf? e a = some i) (hc : v.startOf? e c = some j) (h : i < j)
  | listed (same : v.startOf? e a = v.startOf? e c) (h : ListedBefore s e a c)

/-- Among the nodes that the values of an element stand for is one that names a first or last
token that is not in the tree. -/
def MissesToken (v : View) (s : Schema) (e : Element) (err : Error) : Prop :=
  ∃ f ∈ s.features e.entity, ∃ id n x, .node id ∈ v.present e f ∧ v.tree.node? id = some n ∧
    (n.start = some x ∨ n.stop = some x) ∧ v.tree.token x = .error err

/-- References that stand for the values of an element, in source order. -/
structure SourceOrdered (v : View) (s : Schema) (e : Element) (refs : List ValueReference) :
    Prop where
  /-- Those that name a feature carry the numbers of its values, each once. -/
  numbered : ∀ f ∈ s.features e.entity, ∀ n, v.count? s e f = some n →
    ((refs.filter (·.name = f.name)).map (·.index)).Perm (List.range n)
  /-- There are no others. -/
  listed : ∀ r ∈ refs, r.feature ∈ s.features e.entity
  ordered : refs.Pairwise (v.Precedes s e)

/-! ### The spans behind a feature -/

/-- The spans of the values of a feature; a source position has none. -/
def spans (v : View) (e : Element) : Feature → Except Error (List (Option Span))
  | .relation r => do (← v.filling e r.name).toList.filterMapM (v.relationSpan? e r.name)
  | .property p =>
    if isPositional p.name then .ok [none]
    else do (← v.filling e p.name).toList.mapM v.tree.childSpan

theorem relationReferences_eq (r : Relation) :
    v.relationReferences e r = (Feature.relation r).references <$> v.spans e (.relation r) := by
  unfold relationReferences
  simp only [spans]
  cases v.filling e r.name with
  | error err => rfl
  | ok x =>
      show (x.toList.filterMapM (v.relationSpan? e r.name) >>= _)
        = _ <$> x.toList.filterMapM (v.relationSpan? e r.name)
      cases x.toList.filterMapM (v.relationSpan? e r.name) <;> rfl

theorem propertyReferences_eq (p : Property) :
    v.propertyReferences e p = (Feature.property p).references <$> v.spans e (.property p) := by
  unfold propertyReferences
  simp only [spans]
  cases isPositional p.name with
  | true => rfl
  | false =>
      simp only [Bool.false_eq_true, if_false]
      cases v.filling e p.name with
      | error err => rfl
      | ok x =>
          show (x.toList.mapM v.tree.childSpan >>= _) = _ <$> x.toList.mapM v.tree.childSpan
          cases x.toList.mapM v.tree.childSpan <;> rfl

/-- The spans of a relation are those of the children that its elements stand for. -/
theorem spans_relation_eq {r : Relation} {n : Nat} (h : v.count? s e (.relation r) = some n) :
    v.spans e (.relation r) = (v.present e (.relation r)).mapM v.tree.childSpan ∧
      n = (v.present e (.relation r)).length := by
  obtain ⟨ds, s', hds, rfl⟩ := exists_of_count?_relation h
  obtain ⟨x, hx, hnodes, hseen⟩ := (ends_related_kept r).of_ok hds
  rw [present_relation hx]
  refine ⟨?_, hseen.length_eq.symm⟩
  simp only [spans]
  rw [hx]
  refine filterMapM_eq_mapM fun c hc => ?_
  obtain ⟨id, k, rfl, hk⟩ := hnodes c hc
  rw [keeps_node hk]
  simp only [relationSpan?, relationNode]
  show (v.blueprint.kept? v.tree id >>= _) = _
  rw [hk]
  cases k <;> rfl

/-- The spans are those of the children that the values stand for. -/
theorem spans_eq {f : Feature} {n : Nat} (h : v.count? s e f = some n)
    (hpos : isPositional f.name = false) :
    v.spans e f = (v.present e f).mapM v.tree.childSpan ∧ n = (v.present e f).length := by
  cases f with
  | property p =>
      obtain ⟨vals, hgiven, rfl⟩ := exists_of_count?_property h
      obtain ⟨x, hx, hvals⟩ := given_eq_ok hgiven hpos
      rw [present_property hpos hx]
      refine ⟨?_, hvals.length_eq.symm⟩
      have hspans : v.spans e (.property p) =
          v.filling e p.name >>= fun x => x.toList.mapM v.tree.childSpan := if_neg (by
        rw [show isPositional p.name = false from hpos]
        exact Bool.false_ne_true)
      rw [hspans, hx]
      rfl
  | relation r => exact spans_relation_eq h

/-- What the getter of a feature does not notice: a node may name a first or last token that is
not in the tree. -/
theorem missesToken_of_spans_eq_error {f : Feature} {n : Nat} {err : Error}
    (hf : f ∈ s.features e.entity) (h : v.count? s e f = some n)
    (hpos : isPositional f.name = false) (herr : v.spans e f = .error err) :
    v.MissesToken s e err := by
  rw [(spans_eq h hpos).1] at herr
  obtain ⟨c, hc, hspan⟩ := mapM_eq_error herr
  cases f with
  | property p =>
      obtain ⟨vals, hgiven, -⟩ := exists_of_count?_property h
      obtain ⟨x, hx, hvals⟩ := given_eq_ok hgiven hpos
      rw [present_property hpos hx] at hc
      obtain ⟨val, -, hval⟩ := exists_of_mem_left hvals hc
      rw [Tree.childSpan_of_childValue hval] at hspan
      cases hspan
  | relation r =>
      obtain ⟨ds, s', hds, -⟩ := exists_of_count?_relation h
      obtain ⟨x, hx, hnodes, -⟩ := (ends_related_kept r).of_ok hds
      have hmem := present_relation hx ▸ hc
      obtain ⟨id, k, rfl, hk⟩ := hnodes c (List.mem_filter.mp hmem).1
      obtain ⟨m, hm⟩ := Blueprint.exists_node_of_kept? hk
      obtain ⟨y, hy, herr⟩ := Tree.nodeSpan_eq_error hm hspan
      exact ⟨.relation r, hf, id, m, y, hc, hm, hy, herr⟩

/-- The spans behind a feature of the grammar say where its values start. -/
theorem startOf?_eq {f : Feature} {n : Nat} {spans : List (Option Span)}
    (h : v.count? s e f = some n) (hpos : isPositional f.name = false)
    (hspans : v.spans e f = .ok spans) :
    spans.length = n ∧
      ∀ i span, spans[i]? = some span → span.map Span.start = v.startOf? e ⟨f, i⟩ := by
  obtain ⟨heq, hn⟩ := spans_eq h hpos
  rw [heq] at hspans
  have hall := mapM_eq_ok hspans
  refine ⟨by rw [← hall.length_eq, hn], fun i span hspan => ?_⟩
  obtain ⟨hi, rfl⟩ := List.getElem?_eq_some_iff.mp hspan
  have hi' : i < (v.present e f).length := hall.length_eq ▸ hi
  have hget := (List.forall₂_iff_get.mp hall).2 i hi' hi
  simp only [List.get_eq_getElem] at hget
  simp only [startOf?]
  rw [List.getElem?_eq_getElem hi', Option.bind_some, hget]
  cases spans[i] <;> rfl

/-- There is a span for each value, and it says where the value starts. -/
theorem span_of_value {f : Feature} {n : Nat} {spans : List (Option Span)}
    (h : v.count? s e f = some n)
    (hcomputed : isPositional f.name = true → ∃ p : Position, f = .property p.toProperty)
    (hspans : v.spans e f = .ok spans) :
    spans.length = n ∧
      ∀ i span, spans[i]? = some span → span.map Span.start = v.startOf? e ⟨f, i⟩ := by
  cases hpos : isPositional f.name with
  | false => exact startOf?_eq h hpos hspans
  | true =>
      obtain ⟨p, rfl⟩ := hcomputed hpos
      have hpos' : isPositional p.toProperty.name = true := hpos
      rw [View.spans, if_pos hpos'] at hspans
      cases hspans
      refine ⟨(count?_position h).symm, fun i span hspan => ?_⟩
      obtain ⟨hi, rfl⟩ := List.getElem?_eq_some_iff.mp hspan
      obtain rfl : i = 0 := Nat.lt_one_iff.mp hi
      rw [startOf?, present, if_pos hpos]
      rfl

/-! ### All values -/

theorem perm_encountered : (encountered s e).Perm (s.features e.entity) := by
  unfold encountered
  induction s.features e.entity with
  | nil => exact .nil
  | cons f fs ih =>
      cases f with
      | relation r => exact ih.cons _
      | property p => exact List.perm_middle.trans (ih.cons _)

theorem pairwise_encountered : (encountered s e).Pairwise fun f g => f.name ≠ g.name :=
  (Schema.pairwise_firstOfEachName _).perm perm_encountered.symm Ne.symm

theorem nodup_encountered : (encountered s e).Nodup :=
  pairwise_encountered.imp fun hne heq => hne (congrArg Feature.name heq)

/-- What is listed for an element before it is sorted. -/
def entries (v : View) (s : Schema) (e : Element) : List (ValueReference × Option Span) :=
  (encountered s e).flatMap fun f => f.references ((v.spans e f).toOption.getD [])

theorem mem_references_iff {f : Feature} {spans : List (Option Span)} {r : ValueReference}
    {span : Option Span} :
    (r, span) ∈ f.references spans ↔ r.feature = f ∧ spans[r.index]? = some span := by
  rw [Feature.references, List.mem_mapIdx]
  constructor
  · rintro ⟨i, hi, h⟩
    cases h
    exact ⟨rfl, List.getElem?_eq_getElem hi⟩
  · rintro ⟨rfl, h⟩
    obtain ⟨hi, rfl⟩ := List.getElem?_eq_some_iff.mp h
    exact ⟨r.index, hi, rfl⟩

/-- The values are listed in the order of their features and then of their numbers. -/
theorem pairwise_entries :
    (v.entries s e).Pairwise fun a c => ListedBefore s e a.1 c.1 := by
  rw [entries, List.pairwise_flatMap]
  constructor
  · intro f _
    rw [List.pairwise_iff_getElem]
    intro i j hi hj hij
    simp only [Feature.references, List.getElem_mapIdx]
    exact .inr ⟨rfl, hij⟩
  · rw [List.pairwise_iff_getElem]
    intro i j hi hj hij a ha c hc
    obtain ⟨ha, -⟩ := mem_references_iff.mp ha
    obtain ⟨hc, -⟩ := mem_references_iff.mp hc
    refine .inl ?_
    rw [ha, hc, nodup_encountered.idxOf_getElem i hi, nodup_encountered.idxOf_getElem j hj]
    exact hij

theorem getD_references (f : Feature) (x : Except Error (List (Option Span))) :
    (f.references <$> x).toOption.getD [] = f.references (x.toOption.getD []) := by
  cases x <;> rfl

/-- Listing the values takes the spans of all features and sorts. -/
theorem valuesOrder_eq_ok {refs : List ValueReference} (h : v.valuesOrder s e = .ok refs) :
    (∀ f ∈ encountered s e, ∃ spans, v.spans e f = .ok spans) ∧
      refs = orderBySpan (v.entries s e) := by
  obtain ⟨relations, hrelations, h⟩ := bind_eq_ok_iff.mp h
  obtain ⟨properties, hproperties, h⟩ := bind_eq_ok_iff.mp h
  cases h
  obtain ⟨hallr, rfl⟩ := flatMapM_eq_ok hrelations
  obtain ⟨hallp, rfl⟩ := flatMapM_eq_ok hproperties
  simp only [relationReferences_eq] at hallr
  simp only [propertyReferences_eq] at hallp
  constructor
  · intro f hf
    rcases List.mem_append.mp hf with hf | hf
    · obtain ⟨r, hr, rfl⟩ := List.mem_map.mp hf
      obtain ⟨_, h⟩ := hallr r hr
      exact (map_eq_ok_iff.mp h).imp fun _ h => h.1
    · obtain ⟨p, hp, rfl⟩ := List.mem_map.mp hf
      obtain ⟨_, h⟩ := hallp p hp
      exact (map_eq_ok_iff.mp h).imp fun _ h => h.1
  · simp only [entries, encountered, List.flatMap_append, List.flatMap_map,
      relationReferences_eq, propertyReferences_eq, getD_references]

theorem valuesOrder_eq_error {err : Error} (h : v.valuesOrder s e = .error err) :
    ∃ f ∈ s.features e.entity, v.spans e f = .error err := by
  suffices hlisted : ∃ f ∈ encountered s e, v.spans e f = .error err by
    obtain ⟨f, hf, herr⟩ := hlisted
    exact ⟨f, perm_encountered.mem_iff.mp hf, herr⟩
  rcases bind_eq_error_iff.mp h with h | ⟨relations, -, h⟩
  · obtain ⟨r, hr, herr⟩ := flatMapM_eq_error h
    rw [relationReferences_eq, map_eq_error_iff] at herr
    exact ⟨.relation r, List.mem_append_left _ (List.mem_map_of_mem hr), herr⟩
  · rcases bind_eq_error_iff.mp h with h | ⟨properties, -, h⟩
    · obtain ⟨p, hp, herr⟩ := flatMapM_eq_error h
      rw [propertyReferences_eq, map_eq_error_iff] at herr
      exact ⟨.property p, List.mem_append_right _ (List.mem_map_of_mem hp), herr⟩
    · cases h

/-- Of references listed feature by feature, those that name one of the features are its own. -/
theorem filter_flatMap_name {fs : List Feature} {f : Feature}
    {g : Feature → List ValueReference} (hnames : fs.Pairwise fun a c => a.name ≠ c.name)
    (hg : ∀ a ∈ fs, ∀ r ∈ g a, r.feature = a) (hf : f ∈ fs) :
    (fs.flatMap g).filter (·.name = f.name) = g f := by
  induction fs with
  | nil => cases hf
  | cons a fs ih =>
      obtain ⟨hfirst, hrest⟩ := List.pairwise_cons.mp hnames
      have hothers : ∀ c ∈ fs, ∀ r ∈ g c, r.feature = c :=
        fun c hc => hg c (List.mem_cons_of_mem _ hc)
      rw [List.flatMap_cons, List.filter_append]
      rcases List.mem_cons.mp hf with rfl | hf
      · have hown : (g f).filter (·.name = f.name) = g f := by
          rw [List.filter_eq_self]
          intro r hr
          rw [ValueReference.name, hg f List.mem_cons_self r hr]
          exact decide_eq_true rfl
        have hnone : (fs.flatMap g).filter (·.name = f.name) = [] := by
          rw [List.filter_eq_nil_iff]
          intro r hr
          obtain ⟨c, hc, hr⟩ := List.mem_flatMap.mp hr
          rw [ValueReference.name, hothers c hc r hr, decide_eq_true_eq]
          exact (hfirst c hc).symm
        rw [hown, hnone, List.append_nil]
      · have hnone : (g a).filter (·.name = f.name) = [] := by
          rw [List.filter_eq_nil_iff]
          intro r hr
          rw [ValueReference.name, hg a List.mem_cons_self r hr, decide_eq_true_eq]
          exact hfirst f hf
        rw [hnone, List.nil_append, ih hrest hothers hf]

theorem map_index_references (f : Feature) (spans : List (Option Span)) :
    ((f.references spans).map Prod.fst).map (·.index) = List.range spans.length := by
  refine List.ext_getElem (by simp [Feature.references]) fun i hi hi' => ?_
  simp [Feature.references]

/-- The references of a feature carry the numbers of its values. -/
theorem map_index_entries {f : Feature} {spans : List (Option Span)}
    (hf : f ∈ s.features e.entity) (hspans : v.spans e f = .ok spans) :
    ((((v.entries s e).map Prod.fst).filter (·.name = f.name)).map (·.index))
      = List.range spans.length := by
  rw [entries, List.map_flatMap, filter_flatMap_name pairwise_encountered ?_
    (perm_encountered.mem_iff.mpr hf), hspans]
  · exact map_index_references f spans
  · intro a _ r hr
    obtain ⟨⟨r, span⟩, hmem, rfl⟩ := List.mem_map.mp hr
    exact (mem_references_iff.mp hmem).1

/-- What is listed names a feature of the element and says where the value starts. -/
theorem start_of_mem_entries
    (hcomputed : ∀ f ∈ s.features e.entity, isPositional f.name = true →
      ∃ p : Position, f = .property p.toProperty)
    (hgetters : ∀ f ∈ s.features e.entity, ∃ n, v.count? s e f = some n)
    (hspans : ∀ f ∈ encountered s e, ∃ spans, v.spans e f = .ok spans) {r : ValueReference}
    {span : Option Span} (h : (r, span) ∈ v.entries s e) :
    r.feature ∈ s.features e.entity ∧ span.map Span.start = v.startOf? e r := by
  obtain ⟨f, hf, hmem⟩ := List.mem_flatMap.mp h
  obtain ⟨rfl, hspan⟩ := mem_references_iff.mp hmem
  obtain ⟨spans, hok⟩ := hspans _ hf
  have hlisted := perm_encountered.mem_iff.mp hf
  obtain ⟨n, hn⟩ := hgetters _ hlisted
  rw [hok] at hspan
  exact ⟨hlisted, (span_of_value hn (hcomputed _ hlisted) hok).2 r.index span hspan⟩

/-! ### Sorting by the spans -/

theorem startsBy_eq_true_iff {x y : Option Span} :
    Span.startsBy x y = true ↔
      x.map Span.start = none ∨ ∃ i j, x.map Span.start = some i ∧ y.map Span.start = some j ∧
        i ≤ j := by
  cases x <;> cases y <;> simp [Span.startsBy]

theorem startsBy_trans (x y z : Option Span) (hxy : Span.startsBy x y = true)
    (hyz : Span.startsBy y z = true) : Span.startsBy x z = true := by
  rw [startsBy_eq_true_iff] at *
  rcases hxy with hx | ⟨i, j, hx, hy, hij⟩
  · exact .inl hx
  · rcases hyz with hy' | ⟨j', k, hy', hz, hjk⟩
    · rw [hy'] at hy
      cases hy
    · rw [hy, Option.some.injEq] at hy'
      exact .inr ⟨i, k, hx, hz, by omega⟩

theorem startsBy_total (x y : Option Span) :
    (Span.startsBy x y || Span.startsBy y x) = true := by
  rw [Bool.or_eq_true, startsBy_eq_true_iff, startsBy_eq_true_iff]
  cases x <;> cases y <;> simp [Nat.le_total]

/-- Entries that are sorted by their spans, and listed in order where these do not tell. -/
theorem Precedes.of_startsBy {a c : ValueReference} {x y : Option Span}
    (ha : x.map Span.start = v.startOf? e a) (hc : y.map Span.start = v.startOf? e c)
    (hle : Span.startsBy x y = true) (h : Span.startsBy y x = true → ListedBefore s e a c) :
    v.Precedes s e a c := by
  simp only [startsBy_eq_true_iff, ha, hc] at hle h
  rcases hle with hnone | ⟨i, j, hi, hj, hij⟩
  · by_cases hc' : v.startOf? e c = none
    · exact .listed (by rw [hnone, hc']) (h (.inl hc'))
    · exact .unplaced hnone hc'
  · rcases Nat.lt_or_eq_of_le hij with hlt | rfl
    · exact .start hi hj hlt
    · exact .listed (by rw [hi, hj]) (h (.inr ⟨i, i, hj, hi, le_rfl⟩))

/--
**Values are listed in source order.**  If no feature of the grammar bears the name of a source
position and the getters of all features of an element succeed, then its values can be listed,
unless one of them stands for a node that names a first or last token that is not in the tree.
The list has one reference for each value that a getter gives.  Values that are read from no
child or from one without a place come first and the others follow by where their children
start; where this does not tell, relations come before properties, each in the order of the
features, and then the numbers count.
-/
theorem values_listed_in_source_order (v : View) (s : Schema) (e : Element)
    (hcomputed : ∀ f ∈ s.features e.entity, isPositional f.name = true →
      ∃ p : Position, f = .property p.toProperty)
    (hgetters : ∀ f ∈ s.features e.entity, ∃ n, v.count? s e f = some n) :
    (∀ f ∈ s.features e.entity, v.ReadFrom s e f (v.present e f)) ∧
      (∀ err, v.valuesOrder s e = .error err → v.MissesToken s e err) ∧
      ∀ refs, v.valuesOrder s e = .ok refs → v.SourceOrdered s e refs := by
  refine ⟨fun f hf => ?_, ?_, ?_⟩
  · obtain ⟨n, hn⟩ := hgetters f hf
    exact readFrom_present hn (hcomputed f hf)
  · intro err herr
    obtain ⟨f, hf, hspans⟩ := valuesOrder_eq_error herr
    obtain ⟨n, hn⟩ := hgetters f hf
    cases hpos : isPositional f.name with
    | false => exact missesToken_of_spans_eq_error hf hn hpos hspans
    | true =>
        obtain ⟨p, rfl⟩ := hcomputed f hf hpos
        rw [View.spans, if_pos (show isPositional p.toProperty.name = true from hpos)] at hspans
        cases hspans
  · intro refs hrefs
    obtain ⟨hspans, rfl⟩ := valuesOrder_eq_ok hrefs
    have hperm := List.mergeSort_perm (v.entries s e) fun a c => Span.startsBy a.2 c.2
    have hentry {r : ValueReference} {span : Option Span} (h : (r, span) ∈ v.entries s e) :=
      start_of_mem_entries hcomputed hgetters hspans h
    refine ⟨fun f hf n hn => ?_, fun r hr => ?_, ?_⟩
    · obtain ⟨spans, hok⟩ := hspans f (perm_encountered.mem_iff.mpr hf)
      rw [← (span_of_value hn (hcomputed f hf) hok).1, ← map_index_entries hf hok]
      exact ((hperm.map Prod.fst).filter _).map _
    · obtain ⟨⟨r, span⟩, hmem, rfl⟩ := List.mem_map.mp hr
      exact (hentry (hperm.mem_iff.mp hmem)).1
    · rw [orderBySpan, List.pairwise_map]
      refine (pairwise_mergeSort_stable (fun a c d => startsBy_trans a.2 c.2 d.2)
        (fun a c => startsBy_total a.2 c.2) pairwise_entries).imp_of_mem ?_
      intro a c ha hc h
      exact .of_startsBy (hentry (hperm.mem_iff.mp ha)).2 (hentry (hperm.mem_iff.mp hc)).2
        h.1 h.2

/-- The language with calls, with source positions. -/
def placedCalls : Blueprint where
  grammar := callGrammar
  config := callConfig.withPositions true
  ignoredTypes := [3]
  known := by decide +kernel

def placedView : View := ⟨placedCalls, callView.document⟩

def placedSchema : Schema := placedCalls.served [.deriveAll]

/-- The values of a call, its source positions among them. -/
theorem values_listed_in_source_order_call :
    ∃ refs, placedView.valuesOrder placedSchema outerCall = .ok refs ∧
      placedView.SourceOrdered placedSchema outerCall refs := by
  have hcomputed : ∀ f ∈ placedSchema.features outerCall.entity,
      isPositional f.name = true → ∃ p ∈ Position.all, f = .property p.toProperty := by
    decide +kernel
  have hgetters : ∀ f ∈ placedSchema.features outerCall.entity,
      (placedView.count? placedSchema outerCall f).isSome = true := by decide +kernel
  have hsome : (placedView.valuesOrder placedSchema outerCall).toOption.isSome = true := by
    decide +kernel
  obtain ⟨-, -, hordered⟩ := values_listed_in_source_order placedView placedSchema outerCall
    (fun f hf hpos => (hcomputed f hf hpos).imp fun _ h => h.2)
    (fun f hf => Option.isSome_iff_exists.mp (hgetters f hf))
  obtain ⟨refs, hrefs⟩ := Option.isSome_iff_exists.mp hsome
  have hok := toOption_eq_some_iff.mp hrefs
  exact ⟨refs, hok, hordered refs hok⟩

/-- A block of one statement, which begins with a token that is not in the tree. -/
def cutView : View where
  blueprint := calls
  document :=
    { number := 0
      tree :=
        { nodes := #[⟨"Block", none, [.node ⟨1⟩], none, none, ∅⟩,
            ⟨"Stmt", some ⟨0⟩, [], some ⟨7⟩, none, ∅⟩]
          tokens := #[]
          root := some ⟨0⟩ } }

/-- The statement can be reached from the block, but the values of the block cannot be listed. -/
theorem valuesOrder_misses_token :
    cutView.root callSchema = .ok block callSchema ∧
      (∀ f ∈ callSchema.features block.entity, isPositional f.name = false) ∧
      (∀ f ∈ callSchema.features block.entity, cutView.count? callSchema block f = some 1) ∧
      cutView.valuesOrder callSchema block = .error (.noToken 7) := by
  refine ⟨?_, ?_, ?_, ?_⟩ <;> decide +kernel

end View

end TreeSchema
