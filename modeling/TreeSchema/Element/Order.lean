/-
The values of an element in source order.

Every value of every feature is listed once, as a reference to the feature with the
number of the value.  What has no place in the source comes first; the rest follows
by where it starts, and what starts at one place keeps the order of the features.
-/
import TreeSchema.Element.Reading

namespace TreeSchema

/-- Whether a span comes no later than another; an unknown one comes first. -/
def Span.startsBy : Option Span → Option Span → Bool
  | none, _ => true
  | some _, none => false
  | some s, some t => s.start ≤ t.start

/-- Entries in the order of their spans. -/
def orderBySpan {α : Type} (entries : List (α × Option Span)) : List α :=
  (entries.mergeSort fun a b => Span.startsBy a.2 b.2).map Prod.fst

/-- References to the values of a feature whose spans are given in order. -/
def Feature.references (f : Feature) (spans : List (Option Span)) :
    List (ValueReference × Option Span) :=
  spans.mapIdx fun i span => (⟨f, i⟩, span)

namespace View

/-- The span of a child of a relation, unless its kind is dropped. -/
def relationSpan? (v : View) (e : Element) (relation : String) (c : Child) :
    Except Error (Option (Option Span)) := do
  let id ← v.relationNode e relation c
  match ← v.blueprint.kept? v.tree id with
  | none => return none
  | some _ => some <$> v.tree.nodeSpan id

/-- References to the values of a relation. -/
def relationReferences (v : View) (e : Element) (r : Relation) :
    Except Error (List (ValueReference × Option Span)) := do
  let children := (← v.filling e r.name).toList
  return (Feature.relation r).references (← children.filterMapM (v.relationSpan? e r.name))

/-- References to the values of a property. -/
def propertyReferences (v : View) (e : Element) (p : Property) :
    Except Error (List (ValueReference × Option Span)) := do
  if isPositional p.name then return (Feature.property p).references [none]
  else
    let children := (← v.filling e p.name).toList
    return (Feature.property p).references (← children.mapM v.tree.childSpan)

/-- References to all values of an element, in source order. -/
def valuesOrder (v : View) (s : Schema) (e : Element) : Except Error (List ValueReference) := do
  let features := s.features e.entity
  let relations ← (features.filterMap Feature.relation?).flatMapM (v.relationReferences e)
  let properties ← (features.filterMap Feature.property?).flatMapM (v.propertyReferences e)
  return orderBySpan (relations ++ properties)

end View

end TreeSchema
