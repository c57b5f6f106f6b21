/-
Values and the datatypes they are declared with.

A schema declares the four source positions as integers, where they are wanted, and everything else
as strings.  The getter does not look at the datatype: it goes by the name alone, computes a
position for the four names that are reserved, and reads a stretch of source for any other.  So the
two agree as long as no slot has a reserved name, or is renamed to one.  Where positions are wanted
that would be a second feature of the name, which is refused; where they are not it goes through,
and the value is a count although a string was declared.
-/
import TreeSchema.Proofs.Permanence

namespace TreeSchema

/-- The values that a datatype is for.  A string is given as the stretch of source it is. -/
inductive Value.Fits : Datatype → Value → Prop
  | integer (n : Int) : Fits .integer (.int n)
  | string (t : TokenValue) : Fits .string (.token t)
  | boolean (b : Bool) : Fits .boolean (.bool b)

theorem Value.Fits.unique {d d' : Datatype} {val : Value} (h : val.Fits d) (h' : val.Fits d') :
    d = d' := by
  cases h <;> cases h' <;> rfl

/-! ### What is declared -/

/-- The datatype that goes with a name. -/
def datatypeOf (name : String) : Datatype := if isPositional name then .integer else .string

theorem exists_position {name : String} (h : isPositional name = true) :
    ∃ p ∈ positionalProperties, p.name = name := by
  obtain ⟨position, hposition⟩ := Option.isSome_iff_exists.mp h
  have hall := List.mem_of_find?_eq_some hposition
  have hname : position.name = name := by simpa using List.find?_some hposition
  exact ⟨position.toProperty, List.mem_map_of_mem hall, hname⟩

/-- Source positions are integers, and only they have reserved names. -/
theorem datatype_of_position {p : Property} (h : p ∈ positionalProperties) :
    p.datatype = .integer ∧ isPositional p.name = true := by
  have hall : ∀ q ∈ positionalProperties, q.datatype = .integer ∧ isPositional q.name = true := by
    decide
  exact hall p h

variable {b : Blueprint} {s : Schema} {e : Entity} {p : Property} {id : EntityId}

theorem Blueprint.Emits.datatype_eq {kind : String} {slot : Slot}
    (h : b.Emits kind slot (.property p)) : p.datatype = .string := by
  cases h
  rfl

/-- A property of an entity is a source position, if those are wanted, or text. -/
theorem Blueprint.Derives.position_or_text (h : b.Derives s e) (hp : p ∈ e.properties) :
    b.config.positions = true ∧ p ∈ positionalProperties ∨ p.datatype = .string := by
  refine (h.position_or_slot hp).imp_right fun htext => ?_
  obtain ⟨_, _, -, -, hemits⟩ := htext
  exact hemits.datatype_eq

/-- Where source positions are wanted an entity has them all, and no name is used twice. -/
theorem Blueprint.Derives.datatype_eq (h : b.Derives s e)
    (hnames : (e.features.map Feature.name).Nodup) (hp : p ∈ e.properties) :
    p.datatype = if b.config.positions then datatypeOf p.name else .string := by
  obtain ⟨k, cs, -, -, hcarries⟩ := h.features
  by_cases hpositions : b.config.positions = true
  · rw [if_pos hpositions, datatypeOf]
    have hsub : ∀ q ∈ positionalProperties, q ∈ e.properties := by
      intro q hq
      rw [hcarries.properties, if_pos hpositions]
      exact List.mem_append_left _ hq
    have hnodup : (e.properties.map Property.name).Nodup := by
      rw [Entity.features, List.map_append, List.map_map, List.map_map] at hnames
      exact hnames.of_append_right
    by_cases hname : isPositional p.name = true
    · obtain ⟨q, hq, hqp⟩ := exists_position hname
      obtain rfl := List.inj_on_of_nodup_map hnodup (hsub q hq) hp hqp
      rw [if_pos hname, (datatype_of_position hq).1]
    · rw [if_neg hname]
      rcases h.position_or_text hp with ⟨-, hq⟩ | htext
      · exact absurd (datatype_of_position hq).2 hname
      · exact htext
  · rw [if_neg hpositions]
    rcases h.position_or_text hp with ⟨hwanted, -⟩ | htext
    · exact absurd hwanted hpositions
    · exact htext

theorem Finished.datatype_eq (h : Finished b s) (hp : .property p ∈ s.features id) :
    p.datatype = if b.config.positions then datatypeOf p.name else .string := by
  obtain ⟨i, e, -, he, hmem⟩ := Schema.exists_entity_of_mem_features hp
  refine (h.derived he).datatype_eq (h.consistent.names he) ?_
  simpa [Entity.features] using hmem

/-! ### What is given -/

theorem Tree.fits_childValue {t : Tree} {c : Child} {val : Value} (h : t.childValue c = .ok val) :
    val.Fits .string := by
  cases c with
  | token x =>
      obtain ⟨a, -, h⟩ := bind_eq_ok_iff.mp h
      cases h
      exact .string _
  | node i =>
      obtain ⟨a, -, h⟩ := bind_eq_ok_iff.mp h
      cases h
      exact .string _

namespace View

variable {v : View} {d : Element} {name : String} {val : Value}

/-- The getter goes by the name. -/
theorem fits_value? (h : v.value? s d name = .ok (some val)) : val.Fits (datatypeOf name) := by
  unfold datatypeOf
  cases hpos : isPositional name with
  | true =>
      obtain ⟨q, hq, h⟩ := bind_eq_ok_iff.mp h
      obtain ⟨position, hposition⟩ := Option.isSome_iff_exists.mp hpos
      rw [property_eq_ok hq] at h
      simp only [hposition] at h
      obtain ⟨n, -, h⟩ := bind_eq_ok_iff.mp h
      cases h
      exact .integer _
  | false =>
      obtain ⟨c, -, hread⟩ := value?_eq_ok h hpos
      obtain ⟨c, -, hval⟩ := exists_of_mem_right hread (Option.mem_toList.mpr rfl)
      exact Tree.fits_childValue hval

end View

/--
**A value fits its datatype unless a text has the name of a source position.**  Let a mapper be
asked anything, and then for the value of a property that an element lists.  If the property is
declared an integer then the value is one.  In any case the value is of the datatype that is
declared if source positions are wanted, or if the name of the property is not one that is reserved
for them, and only then.
-/
theorem value_fits_iff (v : View) (before : List Call) (e : Element) {p : Property} {val : Value}
    (hp : .property p ∈ (v.blueprint.session before).schema.features e.entity)
    (hval : v.value? (v.blueprint.session before).schema e p.name = .ok (some val)) :
    (p.datatype = .integer → val.Fits p.datatype) ∧
      (val.Fits p.datatype ↔
        v.blueprint.config.positions = true ∨ isPositional p.name = false) := by
  have hdeclared := (Session.Holds.session v.blueprint before).finished.datatype_eq hp
  have hgiven := View.fits_value? hval
  have hfits : val.Fits p.datatype ↔ p.datatype = datatypeOf p.name :=
    ⟨fun h => h.unique hgiven, fun h => h ▸ hgiven⟩
  rw [hfits, hdeclared]
  by_cases hpositions : v.blueprint.config.positions = true
  · simp [hpositions]
  · rw [if_neg hpositions]
    by_cases hpos : isPositional p.name = true <;> simp [datatypeOf, hpos, hpositions]

/-- A language of includes, whose lines were given a reserved name. -/
def includes : Blueprint where
  grammar := .ofParts "includes" none
    [⟨"Include", none, [.ofItem (.terminal "INCLUDE") .single, .ofItem (.terminal "LINE") .single]⟩]
    [("INCLUDE", 1), ("LINE", 2)]
  config := Config.standard.renameSlot "Include" "LINE" "startLine"
  ignoredTypes := []
  known := by decide +kernel

def includeEvents : List Event :=
  [.start "Include", .token 1 "include", .hidden " ", .token 2 "40", .finish]

def includeView : View := ⟨includes, 0, (includeEvents.foldl Builder.feed .initial).tree⟩

/-- The include that names line 40. It stands in line 1 itself. -/
def include40 : Element := ⟨0, ⟨0⟩, ⟨0⟩, []⟩

/-- The first word of an include has another name, so its value is a text. -/
theorem value_fits_include :
    .property ⟨"INCLUDE", .string, .one⟩ ∈
        (includes.session [.entityId "Include"]).schema.features include40.entity ∧
      ∃ val, includeView.value? (includes.session [.entityId "Include"]).schema include40
        "INCLUDE" = .ok (some val) ∧ val.Fits .string := by
  have hp : .property ⟨"INCLUDE", .string, .one⟩ ∈
      (includes.session [.entityId "Include"]).schema.features include40.entity := by
    decide +kernel
  have hval : includeView.value? (includes.session [.entityId "Include"]).schema include40
      "INCLUDE" = .ok (some (.token ⟨"include", some 1, 1, 0, some ⟨0, 7⟩⟩)) := by
    decide +kernel
  exact ⟨hp, _, hval,
    (value_fits_iff includeView [.entityId "Include"] include40 hp hval).2.mpr
      (.inr (by decide +kernel))⟩

/-- The line is declared a string, but its value is a count, and that of another line. -/
theorem value_unfit_include :
    includeView.root .empty = .ok include40 (includes.session [.root includeView.document]).schema ∧
      .property ⟨"startLine", .string, .one⟩ ∈
        (includes.session [.root includeView.document]).schema.features include40.entity ∧
      includeView.value? (includes.session [.root includeView.document]).schema include40
        "startLine" = .ok (some (.int 1)) ∧
      ¬ (Value.int 1).Fits .string := by
  refine ⟨by decide +kernel, by decide +kernel, by decide +kernel, nofun⟩

end TreeSchema
