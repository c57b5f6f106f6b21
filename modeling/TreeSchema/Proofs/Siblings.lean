/-
Children side by side.

The children of a node share out the tokens below it, from left to right.  So of two children
one comes before the other with all its tokens, and where tokens have text it begins earlier in
the source as well.  What stands in for a transparent node is among the nodes below it, and so
are its tokens.
-/
import TreeSchema.Proofs.Arena
import TreeSchema.Proofs.Extent
import TreeSchema.Proofs.SourceOrder

namespace TreeSchema

namespace Tree

variable {t : Tree} {source : String} {id : NodeId} {n : Node} {c d : Child} {x y : TokenId}
  {a a' : Token}

/-! ### The tokens of children -/

/-- All tokens of one child come before all of another. -/
def Before (t : Tree) (c d : Child) : Prop :=
  ∀ x ∈ t.leavesOf c, ∀ y ∈ t.leavesOf d, x.index < y.index

theorem Built.pairwise_before (h : t.Built) (hn : t.node? id = some n) :
    n.children.Pairwise t.Before := by
  have hleaves := h.pairwise_leaves hn
  rw [h.leaves_eq_flatMap hn, List.pairwise_flatMap] at hleaves
  exact hleaves.2

/-- Of two different children one comes before the other. -/
theorem Built.before_or (h : t.Built) (hn : t.node? id = some n) (hc : c ∈ n.children)
    (hd : d ∈ n.children) : c = d ∨ t.Before c d ∨ t.Before d c := by
  by_cases hcd : c = d
  · exact .inl hcd
  · have hsymm : Std.Symm fun c d => t.Before c d ∨ t.Before d c := ⟨fun c d => Or.symm⟩
    have hpairwise : n.children.Pairwise fun c d => t.Before c d ∨ t.Before d c :=
      (h.pairwise_before hn).imp .inl
    exact .inr (hpairwise.forall hc hd hcd)

/-- The first token of a child comes before its others. -/
theorem Built.head?_le (h : t.Built) (hc : t.Has c) (hx : (t.leavesOf c).head? = some x)
    (hy : y ∈ t.leavesOf c) : x.index ≤ y.index := by
  cases c with
  | token z =>
      cases hx
      cases List.mem_singleton.mp hy
      exact Nat.le_refl _
  | node id =>
      obtain ⟨n, hn⟩ := node?_of_lt hc
      obtain ⟨rest, hrest⟩ := List.head?_eq_some_iff.mp hx
      have hleaves := h.pairwise_leaves hn
      rw [leavesOf] at hrest hy
      rw [hrest] at hy hleaves
      rcases List.mem_cons.mp hy with rfl | hy
      · exact Nat.le_refl _
      · exact Nat.le_of_lt ((List.pairwise_cons.mp hleaves).1 y hy)

/-! ### Full trees -/

/-- There is something in every node, and every token has text but perhaps the last. -/
structure Full (t : Tree) : Prop where
  leaves : ∀ {id n}, t.node? id = some n → t.leaves id ≠ []
  text : ∀ {x a}, t.token? x = some a → x.index + 1 < t.tokens.size → a.text ≠ ""

theorem full_iff :
    t.Full ↔ (∀ i < t.nodes.size, t.leaves ⟨i⟩ ≠ []) ∧
      ∀ i < t.tokens.size, i + 1 < t.tokens.size → ∀ a ∈ t.token? ⟨i⟩, a.text ≠ "" := by
  constructor
  · intro h
    refine ⟨fun i hi => ?_, fun i _ hlast a ha => h.text ha hlast⟩
    obtain ⟨n, hn⟩ : ∃ n, t.node? ⟨i⟩ = some n := node?_of_lt hi
    exact h.leaves hn
  · rintro ⟨hleaves, htext⟩
    refine ⟨fun hn => hleaves _ (index_lt hn), fun {x a} ha hlast => ?_⟩
    exact htext x.index (Array.getElem?_eq_some_iff.mp ha).1 hlast a ha

instance : Decidable t.Full := decidable_of_iff' _ full_iff

theorem Built.exists_source (h : t.Built) : ∃ source, t.Streams source := by
  obtain ⟨events, h⟩ := h
  obtain ⟨-, -, rfl⟩ := Builder.toTree_eq_ok_iff.mp h
  exact ⟨_, (Builder.reads_fed events).tree⟩

/-- A token that comes after another begins after it. -/
theorem Full.start_lt_start (hf : t.Full) (hs : t.Streams source) (ha : t.token? x = some a)
    (ha' : t.token? y = some a') (hlt : x.index < y.index) : a.start < a'.start := by
  have hle := hs.stop_le_start ha ha' hlt
  have hstop := (hs.standsIn ha).stop_eq
  have hlast : y.index < t.tokens.size := (Array.getElem?_eq_some_iff.mp ha').1
  have hsize : a.text.utf8ByteSize ≠ 0 := by
    intro hzero
    exact hf.text ha (by omega) (String.utf8ByteSize_eq_zero_iff.mp hzero)
  omega

/-- A span begins with a token. -/
def Opens (t : Tree) (span : Option Span) (x : TokenId) : Prop :=
  ∃ a, t.token? x = some a ∧ span.map Span.start = some a.start

theorem Opens.exists_span {s : Option Span} (h : t.Opens s x) : ∃ span, s = some span := by
  obtain ⟨a, -, hstart⟩ := h
  exact (Option.map_eq_some_iff.mp hstart).imp fun _ h => h.1

theorem Full.index_le (hf : t.Full) (hs : t.Streams source) {s s' : Option Span}
    (hx : t.Opens s x) (hy : t.Opens s' y) (hle : Span.startsBy s s' = true) :
    x.index ≤ y.index := by
  obtain ⟨a, ha, hstart⟩ := hx
  obtain ⟨a', ha', hstart'⟩ := hy
  rcases Nat.lt_or_ge y.index x.index with hlt | hge
  · have := hf.start_lt_start hs ha' ha hlt
    rw [View.startsBy_eq_true_iff, hstart, hstart'] at hle
    simp at hle
    omega
  · exact hge

theorem Streams.startsBy (hs : t.Streams source) {s s' : Option Span} (hx : t.Opens s x)
    (hy : t.Opens s' y) (hle : x.index ≤ y.index) : Span.startsBy s s' = true := by
  obtain ⟨a, ha, hstart⟩ := hx
  obtain ⟨a', ha', hstart'⟩ := hy
  rw [View.startsBy_eq_true_iff]
  exact .inr ⟨a.start, a'.start, hstart, hstart', hs.start_le_start ha ha' hle⟩

/-- A node begins with the first token below it. -/
theorem Full.nodeSpan (hf : t.Full) (h : t.Built) (hn : t.node? id = some n) :
    ∃ x span, (t.leaves id).head? = some x ∧ t.nodeSpan id = .ok span ∧ t.Opens span x := by
  cases hy : n.stop with
  | none => exact absurd ((h.leaves_eq_nil_iff hn).mpr hy) (hf.leaves hn)
  | some y =>
      obtain ⟨x, a, c, _, hx, hruns⟩ := h.exists_runs hn hy
      refine ⟨x, _, ?_, nodeSpan_eq hn hx hruns.first hy hruns.last, a, hruns.first, rfl⟩
      have := hruns.le
      rw [h.leaves_eq_stretch hn, Node.stretch_eq hx hy, List.head?_map, List.head?_range',
        if_neg (by omega)]
      rfl

/-- A child begins with the first token that it is or has below it. -/
theorem Full.childSpan (hf : t.Full) (h : t.Built) (hc : t.Has c) :
    ∃ x span, (t.leavesOf c).head? = some x ∧ t.childSpan c = .ok span ∧ t.Opens span x := by
  cases c with
  | node id =>
      obtain ⟨n, hn⟩ := node?_of_lt hc
      exact hf.nodeSpan h hn
  | token x =>
      obtain ⟨a, ha⟩ := token?_of_lt hc
      refine ⟨x, some a.span, rfl, ?_, a, ha, rfl⟩
      rw [Tree.childSpan, token_eq_ok_iff.mpr ha]
      rfl

end Tree

namespace Blueprint

variable {b : Blueprint} {t : Tree} {i j : NodeId}

/-! ### Standing in for a node -/

/-- What is below the node that is seen in the place of another is below that one too. -/
theorem leaves_subset_of_elide (ht : t.Built) (h : b.elide t i = .ok j) :
    t.leaves j ⊆ t.leaves i := by
  obtain ⟨hpath, -⟩ := elide_eq_ok_iff.mp h
  clear h
  induction hpath using Relation.ReflTransGen.head_induction_on with
  | refl => exact List.Subset.refl _
  | @head i k hk hrest ih =>
      obtain ⟨n, hn, -, hstand⟩ := standIn?_eq_some_iff.mp hk
      intro x hx
      rw [ht.leaves_eq_flatMap hn, List.mem_flatMap]
      exact ⟨.node k, mem_of_standIn hstand, ih hx⟩

end Blueprint

end TreeSchema
