/-
Source order as it is seen.

The values of an element are sorted by where the children begin that they stand for.  What is
seen of a value is its own span: for a property that is the span of the child, but for a relation
it is the span of the node that stands in for the child, which may begin later.

In a tree in which nothing is empty this makes no difference as long as the children are
different, because what is below one comes before all that is below the next.  It makes one where
a relation and a property share a transparent child: the relation is listed first, though the
element that it leads to may begin after the property's value.
-/
import TreeSchema.Proofs.Siblings

namespace TreeSchema

theorem Filling.toList_ofFound_sublist (a : Arity) (cs : List Child) :
    (Filling.ofFound a cs).toList.Sublist cs := by
  cases a with
  | multi => exact List.Sublist.refl cs
  | single =>
      cases cs with
      | nil => exact .slnil
      | cons c cs => exact (List.nil_sublist cs).cons_cons c

/-- What is behind a slot of a node is some of its children, in their order. -/
theorem Blueprint.filling_sublist {b : Blueprint} {t : Tree} (ht : t.Built) {id : NodeId}
    {name : String} {x : Filling} (h : b.filling t id name = .ok x) :
    ∃ n, t.node? id = some n ∧ x.toList.Sublist n.children := by
  obtain ⟨n, hn, h⟩ := bind_eq_ok_iff.mp h
  have hn := Tree.node_eq_ok_iff.mp hn
  refine ⟨n, hn, ?_⟩
  split at h
  · cases h
  · split at h
    · next hbinding =>
      cases h
      exact ht.linked.bound hn hbinding
    · split at h
      · obtain ⟨cs, hcs, h⟩ := bind_eq_ok_iff.mp h
        cases h
        refine (Filling.toList_ofFound_sublist _ cs).trans ?_
        unfold fitting at hcs
        split at hcs
        · exact (filterM_passed hcs).1
        · split at hcs
          · exact (filterM_passed hcs).1
          · cases hcs
      · cases h
        unfold Filling.empty
        split <;> exact List.nil_sublist _

namespace View

variable {v : View} {s : Schema} {e : Element} {f : Feature} {r : ValueReference} {c d : Child}
  {x y : TokenId} {k : Nat}

/-! ### What is seen of a value -/

/-- The span of the value that a reference stands for, as the getter of its feature gives it: a
value says its span, and an element has that of its node. -/
def ownSpan? (v : View) (s : Schema) (e : Element) (r : ValueReference) : Option Span :=
  match r.feature with
  | .property p => ((v.given s e p).toOption.getD [])[r.index]?.bind Value.span?
  | .relation q =>
    match v.related e q s with
    | .ok ds _ => ds[r.index]?.bind fun d => (v.tree.nodeSpan d.node).toOption.join
    | .error .. => none

/-- The child behind a value, and the first token of what is seen of it: that of the child, or
that of the node that a relation keeps in its place. -/
inductive Shows (v : View) (r : ValueReference) : Child → TokenId → Prop
  | given {p : Property} {c : Child} {x : TokenId} (feature : r.feature = .property p)
      (first : (v.tree.leavesOf c).head? = some x) : Shows v r c x
  | related {q : Relation} {id j : NodeId} {x : TokenId} (feature : r.feature = .relation q)
      (kept : v.blueprint.kept? v.tree id = .ok (some j))
      (first : (v.tree.leaves j).head? = some x) : Shows v r (.node id) x

/-- A relation value and a property value stand for the same child, a transparent node. -/
def Shares (v : View) (e : Element) (a c : ValueReference) : Prop :=
  ∃ q p id n, a.feature = .relation q ∧ c.feature = .property p ∧
    (v.present e a.feature)[a.index]? = some (.node id) ∧
    (v.present e c.feature)[c.index]? = some (.node id) ∧
    v.tree.node? id = some n ∧ v.blueprint.config.isTransparent n.kind = true

/-- References in the order in which their values are seen in the source. -/
structure SeenInOrder (v : View) (s : Schema) (e : Element) (refs : List ValueReference) :
    Prop where
  /-- All values have a place, source positions apart. -/
  known : ∀ r ∈ refs, isPositional r.name = false → ∃ span, v.ownSpan? s e r = some span
  /-- None begins before one that is listed earlier, unless that is seen through a transparent
  node and this is the node. -/
  ordered : refs.Pairwise fun a c => isPositional a.name = false → isPositional c.name = false →
    ∀ {i j}, v.ownSpan? s e a = some i → v.ownSpan? s e c = some j →
      i.start ≤ j.start ∨ v.Shares e a c
  /-- Of two values of a transparent node it is the element that comes first. -/
  shared : refs.Pairwise fun a c => ¬ v.Shares e c a
  /-- The values of a feature keep their order. -/
  numbered : refs.Pairwise fun a c => a.feature = c.feature → a.index < c.index

/-! ### The child behind a value -/

theorem getElem?_of_forall₂ {α β : Type} {p : α → β → Prop} {l : List α} {l' : List β}
    (h : List.Forall₂ p l l') {i : Nat} {a : α} (ha : l[i]? = some a) :
    ∃ b, l'[i]? = some b ∧ p a b := by
  obtain ⟨hi, rfl⟩ := List.getElem?_eq_some_iff.mp ha
  have hi' : i < l'.length := h.length_eq ▸ hi
  exact ⟨_, List.getElem?_eq_getElem hi', (List.forall₂_iff_get.mp h).2 i hi hi'⟩

/-- Relations are listed before properties. -/
theorem idxOf_relation_lt {q : Relation} {p : Property} (hq : .relation q ∈ encountered s e) :
    (encountered s e).idxOf (.relation q) < (encountered s e).idxOf (.property p) := by
  have hrelation : .relation q ∈
      ((s.features e.entity).filterMap Feature.relation?).map Feature.relation := by
    simpa [encountered] using hq
  have hproperty : .property p ∉
      ((s.features e.entity).filterMap Feature.relation?).map Feature.relation := by
    simp
  rw [encountered, List.idxOf_append_of_mem hrelation, List.idxOf_append_of_notMem hproperty]
  have := List.idxOf_lt_length_iff.mpr hrelation
  omega

/-- What is shown is a token that the child is or has below it. -/
theorem Shows.mem (ht : v.tree.Built) (h : v.Shows r c x) : x ∈ v.tree.leavesOf c := by
  cases h with
  | given _ first => exact List.mem_of_mem_head? first
  | related _ kept first =>
      obtain ⟨helide, -⟩ := Blueprint.elide_of_kept? kept
      exact Blueprint.leaves_subset_of_elide ht helide (List.mem_of_mem_head? first)

/-- The child `c` of the node `n` is behind the value `r`, and begins with the token `x`, as the
span does by which the value is listed. -/
structure Behind (v : View) (e : Element) (r : ValueReference) (span : Option Span) (n : Node)
    (c : Child) (x : TokenId) : Prop where
  node : v.tree.node? e.node = some n
  sublist : (v.present e r.feature).Sublist n.children
  child : (v.present e r.feature)[r.index]? = some c
  first : (v.tree.leavesOf c).head? = some x
  opens : v.tree.Opens span x

theorem Behind.mem {span : Option Span} {n : Node} (h : v.Behind e r span n c x) :
    c ∈ n.children := h.sublist.subset (List.mem_of_getElem? h.child)

/-- Of two values of one child the first is not seen later, unless that is an element and the
child is transparent. -/
theorem Shows.le_or_shares (ht : v.tree.Built) {a b : ValueReference} {i j : Option Span}
    {n : Node} {x' y' : TokenId} (ha : v.Shows a c x') (hb : v.Shows b c y')
    (hbehinda : v.Behind e a i n c x) (hbehindb : v.Behind e b j n c y) :
    x'.index ≤ y'.index ∨ v.Shares e a b := by
  have hhas := ht.ordered.has hbehinda.node hbehinda.mem
  cases ha with
  | given _ first => exact .inl (ht.head?_le hhas first (hb.mem ht))
  | @related q id k _ hq hkept hfirst =>
      obtain ⟨m, hm⟩ := Tree.node?_of_lt hhas
      cases hb with
      | @related _ _ k' _ _ hkept' hfirst' =>
          obtain rfl : k = k' := Option.some.inj (Except.ok.inj (hkept.symm.trans hkept'))
          rw [hfirst, Option.some.injEq] at hfirst'
          exact .inl (by rw [hfirst'])
      | @given p _ _ hp hfirst' =>
          by_cases htransparent : v.blueprint.config.isTransparent m.kind = true
          · exact .inr ⟨q, p, id, m, hq, hp, hbehinda.child, hbehindb.child, hm, htransparent⟩
          · obtain ⟨helide, -⟩ := Blueprint.elide_of_kept? hkept
            obtain rfl := Blueprint.eq_of_elide helide hm
              (by simpa [Config.isTransparent] using htransparent)
            have hsame := hfirst.symm.trans hfirst'
            exact .inl (by rw [Option.some.inj hsame])

/-- A source position is listed without a place. -/
theorem span_eq_none {span : Option Span} {p : Property} (h : (r, span) ∈ v.entries s e)
    (hp : r.feature = .property p) (hpos : isPositional p.name = true) : span = none := by
  obtain ⟨f, -, hmem⟩ := List.mem_flatMap.mp h
  obtain ⟨rfl, hspan⟩ := mem_references_iff.mp hmem
  rw [hp, View.spans, if_pos hpos] at hspan
  exact (List.mem_singleton.mp (List.mem_of_getElem? hspan))

/-- What holds of any two entries in the order of their spans holds along the list. -/
theorem pairwise_orderBySpan {p : ValueReference → ValueReference → Prop}
    (h : ∀ {a b i j}, (a, i) ∈ v.entries s e → (b, j) ∈ v.entries s e →
      Span.startsBy i j = true → (Span.startsBy j i = true → ListedBefore s e a b) → p a b) :
    (orderBySpan (v.entries s e)).Pairwise p := by
  have hperm := List.mergeSort_perm (v.entries s e) fun a b => Span.startsBy a.2 b.2
  rw [orderBySpan, List.pairwise_map]
  refine (pairwise_mergeSort_stable (fun a b c => startsBy_trans a.2 b.2 c.2)
    (fun a b => startsBy_total a.2 b.2) pairwise_entries).imp_of_mem ?_
  intro a b ha hb hab
  exact h (hperm.mem_iff.mp ha) (hperm.mem_iff.mp hb) hab.1 hab.2

section Full

variable (ht : v.tree.Built) (hf : v.tree.Full)

include ht hf

/-- What is seen of a value that is read from a child begins with a token of that. -/
theorem exists_shows (hcount : v.count? s e r.feature = some k)
    (hpos : isPositional r.name = false) (hc : (v.present e r.feature)[r.index]? = some c)
    (hhas : v.tree.Has c) : ∃ x, v.Shows r c x ∧ v.tree.Opens (v.ownSpan? s e r) x := by
  obtain ⟨f, i⟩ := r
  cases f with
  | property p =>
      obtain ⟨vals, hgiven, -⟩ := exists_of_count?_property hcount
      obtain ⟨y, hy, hvals⟩ := given_eq_ok hgiven hpos
      rw [present_property hpos hy] at hc
      obtain ⟨val, hval, hread⟩ := getElem?_of_forall₂ hvals hc
      obtain ⟨x, span, hx, hspan, hopens⟩ := hf.childSpan ht hhas
      rw [Tree.childSpan_of_childValue hread, Except.ok.injEq] at hspan
      have hown : v.ownSpan? s e ⟨.property p, i⟩ = val.span? := by
        simp only at hval
        simp [ownSpan?, hgiven, Except.toOption, hval]
      refine ⟨x, .given rfl hx, ?_⟩
      rw [hown, hspan]
      exact hopens
  | relation q =>
      obtain ⟨ds, s', hds, -⟩ := exists_of_count?_relation hcount
      obtain ⟨y, hy, -, hseen⟩ := (ends_related_kept q).of_ok hds
      rw [present_relation hy] at hc
      obtain ⟨d, hd, id, rfl, hk⟩ := getElem?_of_forall₂ hseen hc
      obtain ⟨-, m, hm⟩ := Blueprint.elide_of_kept? hk
      obtain ⟨x, span, hx, hspan, hopens⟩ := hf.nodeSpan ht hm
      have hown : v.ownSpan? s e ⟨.relation q, i⟩ = span := by
        simp only at hd
        simp [ownSpan?, hds, hd, hspan, Except.toOption]
      refine ⟨x, .related rfl hk hx, ?_⟩
      rw [hown]
      exact hopens

omit hf in
/-- The children that values stand for are some of the node's, in their order. -/
theorem present_sublist (hcount : v.count? s e f = some k)
    (hread : isPositional f.name = true → ∃ q, f = .relation q) :
    ∃ n, v.tree.node? e.node = some n ∧ (v.present e f).Sublist n.children := by
  cases f with
  | property p =>
      have hpos : isPositional p.name = false := by
        rw [Bool.eq_false_iff]
        intro hpos
        obtain ⟨q, hq⟩ := hread hpos
        cases hq
      obtain ⟨vals, hgiven, -⟩ := exists_of_count?_property hcount
      obtain ⟨y, hy, -⟩ := given_eq_ok hgiven hpos
      rw [present_property hpos hy]
      exact Blueprint.filling_sublist ht hy
  | relation q =>
      obtain ⟨ds, s', hds, -⟩ := exists_of_count?_relation hcount
      obtain ⟨y, hy, -, -⟩ := (ends_related_kept q).of_ok hds
      obtain ⟨n, hn, hsublist⟩ := Blueprint.filling_sublist ht hy
      rw [present_relation hy]
      exact ⟨n, hn, List.filter_sublist.trans hsublist⟩

variable (hgetters : ∀ f ∈ s.features e.entity, ∃ n, v.count? s e f = some n)
  (hspans : ∀ f ∈ encountered s e, ∃ spans, v.spans e f = .ok spans)

include hgetters hspans

/-- Behind a value that is not a source position is a child, and it is listed by where that
begins. -/
theorem exists_behind {span : Option Span} (h : (r, span) ∈ v.entries s e)
    (hread : isPositional r.name = true → ∃ q, r.feature = .relation q) :
    (∃ k, v.count? s e r.feature = some k) ∧ ∃ n c x, v.Behind e r span n c x := by
  obtain ⟨f, hf', hmem⟩ := List.mem_flatMap.mp h
  obtain ⟨rfl, hspan⟩ := mem_references_iff.mp hmem
  obtain ⟨spans, hok⟩ := hspans _ hf'
  obtain ⟨k, hcount⟩ := hgetters _ (perm_encountered.mem_iff.mp hf')
  obtain ⟨n, hn, hsublist⟩ := present_sublist ht hcount hread
  have heq : v.spans e r.feature = (v.present e r.feature).mapM v.tree.childSpan := by
    cases hpos : isPositional r.name with
    | false => exact (spans_eq hcount hpos).1
    | true =>
        obtain ⟨q, hq⟩ := hread hpos
        rw [hq] at hcount ⊢
        exact (spans_relation_eq hcount).1
  rw [hok] at hspan heq
  obtain ⟨c, hc, hread⟩ := getElem?_of_forall₂ (mapM_eq_ok heq.symm).flip hspan
  have hhas := ht.ordered.has hn (hsublist.subset (List.mem_of_getElem? hc))
  obtain ⟨x, span', hx, hspan', hopens⟩ := hf.childSpan ht hhas
  have hsame : span' = span := Except.ok.inj (hspan'.symm.trans hread)
  rw [hsame] at hopens
  exact ⟨⟨k, hcount⟩, n, c, x, hn, hsublist, hc, hx, hopens⟩

/-! ### Two values -/

variable {a b : ValueReference} {i j : Option Span}

/-- Of two values that are listed by their places the first is not seen later, unless they share
a transparent node. -/
theorem start_le_or_shares (ha : (a, i) ∈ v.entries s e) (hb : (b, j) ∈ v.entries s e)
    (hle : Span.startsBy i j = true) (hposa : isPositional a.name = false)
    (hposb : isPositional b.name = false) {k l : Span} (hk : v.ownSpan? s e a = some k)
    (hl : v.ownSpan? s e b = some l) : k.start ≤ l.start ∨ v.Shares e a b := by
  obtain ⟨source, hs⟩ := ht.exists_source
  obtain ⟨⟨_, hcounta⟩, n, c, x, hbehinda⟩ :=
    exists_behind ht hf hgetters hspans ha (by simp [hposa])
  obtain ⟨⟨_, hcountb⟩, n', d, y, hbehindb⟩ :=
    exists_behind ht hf hgetters hspans hb (by simp [hposb])
  obtain rfl : n = n' := Option.some.inj (hbehinda.node.symm.trans hbehindb.node)
  have hc := hbehinda.mem
  have hd := hbehindb.mem
  have hfirst := hf.index_le hs hbehinda.opens hbehindb.opens hle
  obtain ⟨x', hshowsa, hopensa⟩ := exists_shows ht hf hcounta hposa hbehinda.child
    (ht.ordered.has hbehinda.node hc)
  obtain ⟨y', hshowsb, hopensb⟩ := exists_shows ht hf hcountb hposb hbehindb.child
    (ht.ordered.has hbehinda.node hd)
  suffices hindex : x'.index ≤ y'.index ∨ v.Shares e a b by
    refine hindex.imp_left fun hindex => ?_
    have hstart := hs.startsBy hopensa hopensb hindex
    rw [hk, hl] at hstart
    exact of_decide_eq_true hstart
  have hmema := hshowsa.mem ht
  have hmemb := hshowsb.mem ht
  -- what is seen of a value is below its child, so the order of the children decides
  rcases ht.before_or hbehinda.node hc hd with rfl | hbefore | hbefore
  · exact hshowsa.le_or_shares ht hshowsb hbehinda hbehindb
  · exact .inl (Nat.le_of_lt (hbefore _ hmema _ hmemb))
  · have hlt := hbefore y (List.mem_of_mem_head? hbehindb.first) x
      (List.mem_of_mem_head? hbehinda.first)
    omega

/-- Of two values of one feature the one that is listed first has the lower number. -/
theorem index_lt_of_startsBy (ha : (a, i) ∈ v.entries s e) (hb : (b, j) ∈ v.entries s e)
    (hstable : Span.startsBy j i = true → ListedBefore s e a b) (hfeature : a.feature = b.feature) :
    a.index < b.index := by
  by_cases hback : Span.startsBy j i = true
  · rcases hstable hback with hlt | ⟨-, hlt⟩
    · rw [hfeature] at hlt
      exact absurd hlt (Nat.lt_irrefl _)
    · exact hlt
  · obtain ⟨source, hs⟩ := ht.exists_source
    have hread : isPositional b.name = true → ∃ q, b.feature = .relation q := by
      intro hpos
      cases hf : b.feature with
      | relation q => exact ⟨q, rfl⟩
      | property p =>
          rw [ValueReference.name, hf] at hpos
          rw [span_eq_none hb hf hpos] at hback
          exact absurd rfl hback
    obtain ⟨-, n, c, x, hbehinda⟩ := exists_behind ht hf hgetters hspans ha
      (by rw [ValueReference.name, hfeature]; exact hread)
    obtain ⟨-, n', d, y, hbehindb⟩ := exists_behind ht hf hgetters hspans hb hread
    by_contra hge
    refine hback (hs.startsBy hbehindb.opens hbehinda.opens ?_)
    have hc := hbehinda.child
    rw [hfeature] at hc
    rcases Nat.lt_or_eq_of_le (Nat.le_of_not_lt hge) with hlt | heq
    · obtain ⟨hi, rfl⟩ := List.getElem?_eq_some_iff.mp hbehindb.child
      obtain ⟨hj, rfl⟩ := List.getElem?_eq_some_iff.mp hc
      have hpairwise := (ht.pairwise_before hbehindb.node).sublist hbehindb.sublist
      have hbefore := List.pairwise_iff_getElem.mp hpairwise b.index a.index hi hj hlt
      exact Nat.le_of_lt (hbefore _ (List.mem_of_mem_head? hbehindb.first) _
        (List.mem_of_mem_head? hbehinda.first))
    · rw [← heq, hbehindb.child, Option.some.injEq] at hc
      subst hc
      have hxy := hbehinda.first.symm.trans hbehindb.first
      rw [Option.some.inj hxy]

/-- Of two values of one node the element is listed first. -/
theorem not_shares_of_startsBy (ha : (a, i) ∈ v.entries s e) (hb : (b, j) ∈ v.entries s e)
    (hstable : Span.startsBy j i = true → ListedBefore s e a b) : ¬ v.Shares e b a := by
  rintro ⟨q, p, id, m, hq, hp, hchildb, hchilda, -⟩
  have hread : isPositional a.name = true → ∃ q, a.feature = .relation q := by
    intro hpos
    rw [hp, present, if_pos (by rw [← hp]; exact hpos)] at hchilda
    cases hchilda
  obtain ⟨source, hs⟩ := ht.exists_source
  obtain ⟨-, n, c, x, hbehinda⟩ := exists_behind ht hf hgetters hspans ha hread
  obtain ⟨-, n', d, y, hbehindb⟩ := exists_behind ht hf hgetters hspans hb fun _ => ⟨q, hq⟩
  have hc : c = .node id := Option.some.inj (hbehinda.child.symm.trans hchilda)
  have hd : d = .node id := Option.some.inj (hbehindb.child.symm.trans hchildb)
  -- both are listed by the first token of the one node, so their order is that of the features
  have hxy : some x = some y := by
    rw [← hbehinda.first, ← hbehindb.first, hc, hd]
  have hback : Span.startsBy j i = true := by
    refine hs.startsBy hbehindb.opens hbehinda.opens ?_
    rw [Option.some.inj hxy]
  obtain ⟨f, hf', hmem⟩ := List.mem_flatMap.mp hb
  obtain ⟨rfl, -⟩ := mem_references_iff.mp hmem
  rw [hq] at hf'
  have hlt := idxOf_relation_lt (p := p) hf'
  rcases hstable hback with hlisted | ⟨hsame, -⟩
  · rw [hp, hq] at hlisted
    omega
  · rw [hp, hq] at hsame
    cases hsame

end Full

/--
**Values are listed as they are seen.**  If a tree was built, there is something in every node
and every token has text but perhaps the last, and if the getters of all features of an element
succeed and its values can be listed, then all of them have a place, source positions apart, and
none is seen before one that is listed earlier, with one exception: where a relation and a
property stand for the same transparent node the relation comes first, though the element that it
leads to may begin after the node.  The values of each feature come in their order.
-/
theorem values_seen_in_order (v : View) (s : Schema) (e : Element) (ht : v.tree.Built)
    (hf : v.tree.Full) (hgetters : ∀ f ∈ s.features e.entity, ∃ n, v.count? s e f = some n)
    {refs : List ValueReference} (hrefs : v.valuesOrder s e = .ok refs) :
    v.SeenInOrder s e refs := by
  obtain ⟨hspans, rfl⟩ := valuesOrder_eq_ok hrefs
  refine ⟨?_, ?_, ?_, ?_⟩
  · intro r hr hpos
    obtain ⟨⟨r, span⟩, hmem, rfl⟩ := List.mem_map.mp hr
    obtain ⟨⟨_, hcount⟩, n, c, x, hbehind⟩ := exists_behind ht hf hgetters hspans
      ((List.mergeSort_perm _ _).mem_iff.mp hmem) (by simp [hpos])
    obtain ⟨x', -, hopens⟩ := exists_shows ht hf hcount hpos hbehind.child
      (ht.ordered.has hbehind.node hbehind.mem)
    exact hopens.exists_span
  · apply pairwise_orderBySpan
    intro a b i j ha hb hle _ hposa hposb k l
    exact start_le_or_shares ht hf hgetters hspans ha hb hle hposa hposb
  · apply pairwise_orderBySpan
    intro a b i j ha hb _ hstable
    exact not_shares_of_startsBy ht hf hgetters hspans ha hb hstable
  · apply pairwise_orderBySpan
    intro a b i j ha hb _ hstable
    exact index_lt_of_startsBy ht hf hgetters hspans ha hb hstable

/-- A language in which an atom is a value and is written as a token.  A quote is an atom that
gives way to the number after its mark. -/
def quotes : Blueprint where
  grammar := .ofParts "quotes" none
    [⟨"Root", none, [.ofItem (.node "Value") .single, .ofItem (.node "Atom") .single]⟩,
     ⟨"Value", none, []⟩,
     ⟨"Atom", some "Value", []⟩,
     ⟨"Quote", some "Atom", [.ofItem (.terminal "MARK") .single, .ofItem (.node "Num") .single]⟩,
     ⟨"Num", some "Value", [.ofItem (.terminal "NUM") .single]⟩]
    [("MARK", 1), ("NUM", 2)]
  config := ((Config.standard.markTransparent "Quote").flatten "Atom").ignoreToken "MARK"
  ignoredTypes := [1]
  known := by decide +kernel

/-- A quoted number. -/
def quoteEvents : List Event :=
  [.start "Root", .start "Quote", .token 1 "'", .start "Num", .token 2 "1", .finish, .finish,
    .finish]

def quoteView : View := ⟨quotes, 0, (Builder.fed quoteEvents).tree⟩

def quoteSchema : Schema := quotes.served [.entityId "Root"]

def quoteRoot : Element := ⟨0, ⟨0⟩, ⟨0⟩, []⟩

theorem built_quoteView : quoteView.tree.Built :=
  ⟨quoteEvents, Builder.toTree_eq_ok_iff.mpr ⟨by decide, by decide, rfl⟩⟩

theorem full_quoteView : quoteView.tree.Full := by decide +kernel

/-- The values of a root with a quoted number. -/
theorem values_seen_in_order_quote :
    ∃ refs, quoteView.valuesOrder quoteSchema quoteRoot = .ok refs ∧
      quoteView.SeenInOrder quoteSchema quoteRoot refs := by
  have hgetters : ∀ f ∈ quoteSchema.features quoteRoot.entity,
      (quoteView.count? quoteSchema quoteRoot f).isSome = true := by decide +kernel
  have hsome : (quoteView.valuesOrder quoteSchema quoteRoot).toOption.isSome = true := by
    decide +kernel
  obtain ⟨refs, hrefs⟩ := Option.isSome_iff_exists.mp hsome
  have hok := toOption_eq_some_iff.mp hrefs
  exact ⟨refs, hok, values_seen_in_order quoteView quoteSchema quoteRoot built_quoteView
    full_quoteView (fun f hf => Option.isSome_iff_exists.mp (hgetters f hf)) hok⟩

/-- The value of a root and its atom are both the quote.  The value is listed first and is seen as
the number, which begins after the mark. -/
theorem valuesOrder_seen_out_of_order :
    quoteView.tree.Built ∧ quoteView.tree.Full ∧
      quoteView.root (quotes.served []) = .ok quoteRoot quoteSchema ∧
      (∀ f ∈ quoteSchema.features quoteRoot.entity,
        (quoteView.count? quoteSchema quoteRoot f).isSome = true) ∧
      ∃ value atom, quoteView.valuesOrder quoteSchema quoteRoot = .ok [value, atom] ∧
        isPositional value.name = false ∧ isPositional atom.name = false ∧
        quoteView.ownSpan? quoteSchema quoteRoot value = some ⟨1, 2⟩ ∧
        quoteView.ownSpan? quoteSchema quoteRoot atom = some ⟨0, 2⟩ := by
  have hentries : quoteView.entries quoteSchema quoteRoot =
      [(⟨.relation ⟨"value", .containment, .one, ⟨0⟩, ⟨1⟩⟩, 0⟩, some ⟨0, 2⟩),
        (⟨.property ⟨"atom", .string, .one⟩, 0⟩, some ⟨0, 2⟩)] := by decide +kernel
  have hsome : (quoteView.valuesOrder quoteSchema quoteRoot).toOption.isSome = true := by
    decide +kernel
  obtain ⟨refs, hrefs⟩ := Option.isSome_iff_exists.mp hsome
  have hok := toOption_eq_some_iff.mp hrefs
  obtain ⟨-, rfl⟩ := valuesOrder_eq_ok hok
  rw [hentries, orderBySpan, List.mergeSort_of_pairwise (by decide)] at hok
  exact ⟨built_quoteView, full_quoteView, by decide +kernel, by decide +kernel, _, _, hok,
    by decide, by decide, by decide +kernel, by decide +kernel⟩

end View

end TreeSchema
