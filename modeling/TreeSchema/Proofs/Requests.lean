/-
Schemas that requests lead to.

A schema starts empty and is changed by three kinds of request, which may succeed or fail.
Whatever is asked and in whatever order, two things hold afterwards: the schema is
consistent, and every entity in it is finished, so it is exactly what grammar and
configuration make of its kind.  The induction on the requests needs nothing more, because
a request that succeeds only adds finished entities and one that fails adds nothing.
-/
import TreeSchema.Proofs.Building

namespace TreeSchema

/-- The requests that can change a schema. -/
inductive Request where
  | entityId (kind : String)
  | entityFor (kind : String)
  | deriveAll

namespace Blueprint

/-- Answers a request. -/
def serve (b : Blueprint) : Request → Deriving Unit
  | .entityId kind => discard (b.entityId kind)
  | .entityFor kind => discard (b.entityFor kind)
  | .deriveAll => discard b.deriveAll

/-- The schema after a request, whether or not it succeeded. -/
def after (b : Blueprint) (s : Schema) (r : Request) : Schema :=
  match b.serve r s with
  | .ok _ s' => s'
  | .error _ s' => s'

/-- The schema after a row of requests. -/
def served (b : Blueprint) (requests : List Request) : Schema := requests.foldl b.after .empty

end Blueprint

/-- A consistent schema with finished entities only. -/
structure Finished (b : Blueprint) (s : Schema) : Prop where
  consistent : Consistent b s
  derived : ∀ {id e}, s.entity? id = some e → b.Derives s e

namespace Finished

variable {b : Blueprint} {s s' : Schema}

theorem empty (b : Blueprint) : Finished b .empty where
  consistent := consistent_empty b
  derived he := absurd (Schema.index_lt he) (Nat.not_lt_zero _)

theorem grow (h : Finished b s) (hg : Grows b s s') : Finished b s' where
  consistent := hg.consistent
  derived := by
    intro id e he
    by_cases hlt : id.index < s.size
    · obtain ⟨e', he', hge⟩ := hg.extends_.grown hlt he
      exact (h.derived he').mono hg.extends_ hge
    · exact hg.derived (Nat.not_lt.mp hlt) he

/-! ### Requests -/

theorem ends_entityId (h : Finished b s) (kind : String) :
    Ends (b.entityId kind) s
      (fun id s' => Finished b s' ∧ s.Extends s' ∧ s'.idOf? kind = some id)
      fun e s' => s' = s ∧ b.Faults e :=
  (b.ends_entityId kind h.consistent).mono (fun _ _ h' => ⟨h.grow h'.1, h'.1.extends_, h'.2⟩)
    fun _ _ h' => h'

theorem ends_entityFor (h : Finished b s) (kind : String) :
    Ends (b.entityFor kind) s (fun _ s' => Finished b s') fun _ s' => Finished b s' := by
  refine Ends.bind ((h.ends_entityId kind).mono (fun _ _ h' => h') fun _ _ h' => h'.1 ▸ h)
    fun id s' h' => ?_
  exact Ends.bind_get (Ends.lift (fun _ _ => h'.1) fun _ _ => h'.1)

/-- After all kinds were asked for with success, every kind that can have an entity has one. -/
theorem ends_deriveAll (h : Finished b s) :
    Ends b.deriveAll s
      (fun n s' => Finished b s' ∧ s.Extends s' ∧ n = s'.size ∧
        ∀ k ∈ b.grammar.kinds, b.isMappable k.name = true → ∃ id, s'.idOf? k.name = some id)
      fun _ s' => Finished b s' := by
  refine Ends.bind (Ends.forM
    (I := fun done s' =>
      Finished b s' ∧ s.Extends s' ∧ ∀ kind ∈ done, ∃ id, s'.idOf? kind = some id)
    ⟨h, .refl s, by simp⟩ fun done kind s₁ _ h₁ => ?_) fun _ s' h' => Ends.bind_get (Ends.pure ?_)
  · refine Ends.bind ((h₁.1.ends_entityId kind).mono (fun _ _ h₂ => h₂) fun _ _ h₂ => h₂.1 ▸ h₁.1)
      fun id s₂ h₂ => Ends.pure ⟨h₂.1, h₁.2.1.trans h₂.2.1, fun other hother => ?_⟩
    rcases List.mem_append.mp hother with hdone | hnew
    · obtain ⟨i, hi⟩ := h₁.2.2 other hdone
      exact ⟨i, h₂.2.1.idOf? hi⟩
    · rw [List.mem_singleton] at hnew
      exact ⟨id, hnew ▸ h₂.2.2⟩
  · refine ⟨h'.1, h'.2.1, rfl, fun k hk hm => h'.2.2 k.name ?_⟩
    exact List.mem_filter.mpr ⟨List.mem_map_of_mem hk, hm⟩

theorem after (h : Finished b s) (r : Request) : Finished b (b.after s r) := by
  have hserve : Ends (b.serve r) s (fun _ s' => Finished b s') fun _ s' => Finished b s' := by
    cases r with
    | entityId kind =>
        exact Ends.bind ((h.ends_entityId kind).mono (fun _ _ h' => h') fun _ _ h' => h'.1 ▸ h)
          fun _ _ h' => Ends.pure h'.1
    | entityFor kind =>
        exact Ends.bind (h.ends_entityFor kind) fun _ _ h' => Ends.pure h'
    | deriveAll =>
        exact Ends.bind h.ends_deriveAll fun _ _ h' => Ends.pure h'.1
  unfold Blueprint.after
  unfold Ends at hserve
  cases hr : b.serve r s with
  | ok _ s' => rw [hr] at hserve; exact hserve
  | error _ s' => rw [hr] at hserve; exact hserve

end Finished

/-- Whatever is asked, the schema is consistent and its entities are finished. -/
theorem Blueprint.finished_served (b : Blueprint) (requests : List Request) :
    Finished b (b.served requests) := by
  have hrun : ∀ (requests : List Request) (s : Schema), Finished b s →
      Finished b (requests.foldl b.after s) := by
    intro requests
    induction requests with
    | nil =>
        intro s h
        exact h
    | cons r rest ih =>
        intro s h
        have hafter : Finished b (b.after s r) := h.after r
        exact ih (b.after s r) hafter
  exact hrun requests .empty (.empty b)

/-! ### Requests that fail -/

/--
**A failed request changes nothing.**  However many entities it had added, features it had
given and parents it had made abstract before it failed, the entities and the numbers of
kinds are what they were.  It fails because the configuration is at fault or because the
derivation went too deep.
-/
theorem entityId_failure_keeps_schema (b : Blueprint) (requests : List Request) {kind : String}
    {e : Error} {s' : Schema} (h : b.entityId kind (b.served requests) = .error e s') :
    s' = b.served requests ∧ (e.fault = .configuration ∨ e = .tooDeep b.config.maxDepth) :=
  ((b.finished_served requests).ends_entityId kind).of_error h

/-- A small language: statements, some of them calls with arguments, which are written in
wrappers of their own. -/
def callGrammar : Grammar :=
  .ofParts "calls" (some "Node")
    [⟨"Block", some "Node", [.ofItem (.node "Stmt") .multi]⟩,
     ⟨"Stmt", some "Node", [.ofItem (.terminal "NEWLINE") .single]⟩,
     ⟨"Call", some "Stmt", [.ofItem (.terminal "NAME") .single, .ofItem (.node "Arg") .multi]⟩,
     ⟨"Arg", none, [.ofItem (.node "Expr") .single, .ofItem (.terminal "COMMA") .single]⟩,
     ⟨"Expr", none,
       [.ofItem (.terminal "NUMBER") .single, .labelled "call" .single (.node "Call")]⟩]
    [("NEWLINE", 1), ("NAME", 2), ("COMMA", 3), ("NUMBER", 4)]

def callConfig : Config := (Config.standard.markTransparent "Arg").ignoreToken "COMMA"

/-- The language with calls. -/
def calls : Blueprint where
  grammar := callGrammar
  config := callConfig
  ignoredTypes := [3]
  known := by decide +kernel

/-- The language with calls asked for a slot that they do not have. -/
def faultyCalls : Blueprint where
  grammar := callGrammar
  config := callConfig.includeSlot "Call" "missing"
  ignoredTypes := [3]
  known := by decide +kernel

/-- An expression leads to a call, and that makes statements abstract before it fails. -/
theorem entityId_failure_keeps_schema_expr :
    ∃ e s', faultyCalls.entityId "Expr" (faultyCalls.served [.entityId "Block"]) = .error e s' ∧
      e = .noSlot "Call" "missing" ∧ s' = faultyCalls.served [.entityId "Block"] := by
  have h : faultyCalls.entityId "Expr" (faultyCalls.served [.entityId "Block"])
      = .error (.noSlot "Call" "missing") (faultyCalls.served [.entityId "Block"]) := by
    decide +kernel
  exact ⟨_, _, h, rfl, (entityId_failure_keeps_schema faultyCalls [.entityId "Block"] h).1⟩

/-! ### Every schema there can be -/

/--
**Every schema is consistent**, whatever was asked before and whether or not it succeeded:
kinds and entities correspond, parents come before their subtypes, relations lead from
their own entity to one that is there, names are distinct, and the abstract entities are
those with a subtype.  In particular no kind below a cycle of parents has an entity.
-/
theorem consistent_served (b : Blueprint) (requests : List Request) :
    Consistent b (b.served requests) ∧
      ∀ kind id ancestor, (b.served requests).idOf? kind = some id →
        Relation.ReflTransGen b.grammar.DerivesFrom kind ancestor →
        ¬ Relation.TransGen b.grammar.DerivesFrom ancestor ancestor :=
  ⟨(b.finished_served requests).consistent,
    fun _ _ _ hid h => (b.finished_served requests).consistent.acyclic hid h⟩

end TreeSchema
