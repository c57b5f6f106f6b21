/-
Grammars: the kinds of one language, their inheritance and the vocabulary.

Kinds are kept in the order of their first definition and a later definition replaces
an earlier one of the same name at its place.  A kind derives from its parent unless
that is the base kind, which every kind extends and which counts as no parent.
Inheritance is read off `lineage`, the chain of parents cut after one step more than
there are kinds, so that a cycle of parents cannot keep a look-up from ending.
-/
import TreeSchema.Grammar.Kind
import TreeSchema.Grammar.Vocabulary
import TreeSchema.Error

namespace TreeSchema

/-- The rule kinds of a language and its tokens. -/
structure Grammar where
  name : String
  /-- The kind that all kinds extend. -/
  base : Option String
  kinds : List Kind
  /-- No two kinds have the same name. -/
  distinct : (kinds.map Kind.name).Nodup
  vocabulary : Vocabulary
  deriving DecidableEq

namespace Grammar

/-- A grammar without kinds. -/
def empty (name : String) : Grammar := ⟨name, none, [], .nil, .initial⟩

/-- Puts a kind in the place of the one with its name, or at the end. -/
def place (k : Kind) : List Kind → List Kind
  | [] => [k]
  | j :: js => if j.name = k.name then k :: js else j :: place k js

theorem map_name_place (k : Kind) (ks : List Kind) :
    (place k ks).map Kind.name =
      if k.name ∈ ks.map Kind.name then ks.map Kind.name else ks.map Kind.name ++ [k.name] := by
  induction ks with
  | nil => simp [place]
  | cons j js ih =>
    by_cases h : j.name = k.name
    · simp [place, h]
    · have h' : ¬ k.name = j.name := fun e => h e.symm
      by_cases hk : k.name ∈ js.map Kind.name
      · simp only [place, if_neg h, List.map_cons, ih, if_pos hk]
        rw [if_pos (List.mem_cons_of_mem _ hk)]
      · simp only [place, if_neg h, List.map_cons, ih, if_neg hk]
        rw [if_neg (by simp only [List.mem_cons, not_or]; exact ⟨h', hk⟩)]
        rfl

/-- Adds a kind, or replaces the one with its name. -/
def define (g : Grammar) (k : Kind) : Grammar :=
  { g with
    kinds := place k g.kinds
    distinct := by
      rw [map_name_place]
      split
      · exact g.distinct
      · next h =>
        refine List.nodup_append.2 ⟨g.distinct, by simp, fun a ha b hb => ?_⟩
        rw [List.mem_singleton.1 hb]
        exact fun e => h (e ▸ ha) }

def withBase (g : Grammar) (kind : String) : Grammar := { g with base := some kind }

def withToken (g : Grammar) (name : String) (type : Int) : Grammar :=
  { g with vocabulary := g.vocabulary.define name type }

/-- The grammar with the given parts, its kinds defined one after the other. -/
def ofParts (name : String) (base : Option String) (kinds : List Kind)
    (tokens : List (String × Int)) : Grammar :=
  kinds.foldl define { empty name with base := base, vocabulary := .ofList tokens }

/-- The kind of the given name. -/
def kind? (g : Grammar) (name : String) : Option Kind := g.kinds.find? (·.name = name)

/-- The kind of the given name, which has to be there. -/
def kind (g : Grammar) (name : String) : Except Error Kind :=
  match g.kind? name with
  | some k => .ok k
  | none => .error (.noKind name)

theorem kind_eq_ok_iff {g : Grammar} {name : String} {k : Kind} :
    g.kind name = .ok k ↔ g.kind? name = some k := by
  unfold kind
  cases g.kind? name <;> simp

theorem name_of_kind?_eq_some {g : Grammar} {name : String} {k : Kind}
    (h : g.kind? name = some k) : k.name = name := by
  simpa using List.find?_some h

def isBase (g : Grammar) (kind : String) : Bool := g.base = some kind

/-- The kind that a kind derives from; the base kind counts as none. -/
def parent? (g : Grammar) (kind : String) : Option String :=
  ((g.kind? kind).bind Kind.parent).filter (!g.isBase ·)

/-- The first `n` kinds of the chain of parents that starts with `kind`. -/
def lineageUpTo (g : Grammar) : Nat → String → List String
  | 0, _ => []
  | n + 1, kind =>
    kind :: match g.parent? kind with
      | some parent => g.lineageUpTo n parent
      | none => []

/-- A kind and the kinds that it derives from, nearest first. -/
def lineage (g : Grammar) (kind : String) : List String :=
  g.lineageUpTo (g.kinds.length + 1) kind

/-- Whether `kind` is `target` or derives from it. -/
def conforms (g : Grammar) (kind target : String) : Bool := target ∈ g.lineage kind

/-- The slot of a kind, own or else inherited from the nearest kind that has one. -/
def slot? (g : Grammar) (kind name : String) : Option Slot :=
  (g.lineage kind).findSome? fun k => (g.kind? k).bind (·.slot? name)

end Grammar

end TreeSchema
