/-
Grammars that are written down and read again.

Of a vocabulary only the types of the names are written, and of the kinds only the kinds, in their
order.  All else is made anew when the definitions are made anew on reading.  For the kinds that is
no loss, since no two have one name: each goes to the end, after those before it.  The tokens
come in whatever order they are written in.  That is no loss for the types of names, since
each name is written once and `EOF` is always among them.  The names of types may be others than
before: a type keeps its name only if no other name has the type.
-/
import TreeSchema.Proofs.Naming
import TreeSchema.Proofs.Placing
import TreeSchema.Grammar.Json

namespace TreeSchema

/-! ### What is written is read -/

theorem Json.list?_ofList {α : Type} {write : α → Json} {read? : Json → Option α}
    (h : ∀ a, read? (write a) = some a) (l : List α) : list? read? (ofList write l) = some l := by
  show (l.map write).mapM read? = some l
  induction l with
  | nil => rfl
  | cons a l ih => rw [List.map_cons, List.mapM_cons, h a, ih]; rfl

theorem Json.map?_obj {α : Type} {write : α → Json} {read? : Json → Option α}
    {l : List (String × α)} (h : ∀ e ∈ l, read? (write e.2) = some e.2) :
    map? read? (obj (l.map fun e => (e.1, write e.2))) = some (FinMap.ofList l) := by
  have hfields : (l.map fun e => (e.1, write e.2)).mapM
      (fun f => (read? f.2).map (f.1, ·)) = some l := by
    induction l with
    | nil => rfl
    | cons e l ih =>
        obtain ⟨he, hl⟩ := List.forall_mem_cons.mp h
        rw [List.map_cons, List.mapM_cons, he, ih hl]
        rfl
  simp only [map?, hfields, Option.map_some]

theorem Arity.ofJson?_toJson (a : Arity) : ofJson? a.toJson = some a := by
  cases a <;> rfl

theorem Accessor.ofJson?_toJson (a : Accessor) : ofJson? a.toJson = some a := by
  cases a <;> rfl

theorem Item.ofJson?_toJson (i : Item) : ofJson? i.toJson = some i := by
  cases i <;> rfl

theorem Slot.ofJson?_toJson (s : Slot) : ofJson? s.toJson = some s := by
  have ha := Arity.ofJson?_toJson s.arity
  have hi := Item.ofJson?_toJson s.item
  have hc := Accessor.ofJson?_toJson s.accessor
  simp [ofJson?, toJson, Json.record?, Json.field?, Json.text?, List.lookup_cons, ha, hi, hc]

theorem Json.optional?_text (o : Option String) : optional? text? (ofOption str o) = some o := by
  cases o <;> rfl

theorem Kind.ofJson?_toJson (k : Kind) : ofJson? k.toJson = some k := by
  have hp := Json.optional?_text k.parent
  have hs := Json.list?_ofList Slot.ofJson?_toJson k.slots
  simp [ofJson?, toJson, Json.record?, Json.field?, Json.fieldOpt?, Json.fieldD?, Json.text?,
    List.lookup_cons, hp, hs]

/-! ### What is read is defined anew -/

namespace FinMap

variable {κ α : Type} [DecidableEq κ]

theorem entries_foldl_insert {l : List (κ × α)} {m : FinMap κ α}
    (h : ((m.entries ++ l).map Prod.fst).Nodup) :
    (l.foldl (fun m e => m.insert e.1 e.2) m).entries = m.entries ++ l := by
  induction l generalizing m with
  | nil => rw [List.foldl_nil, List.append_nil]
  | cons e l ih =>
      have hnew : m.find? e.1 = none := by
        rw [Option.eq_none_iff_forall_ne_some]
        intro v hv
        have hold : e.1 ∈ m.entries.map Prod.fst :=
          List.mem_map.mpr ⟨(e.1, v), find?_eq_some_iff.mp hv, rfl⟩
        rw [List.map_append] at h
        exact (List.nodup_append.mp h).2.2 _ hold _ List.mem_cons_self rfl
      have hend : (m.insert e.1 e.2).entries = m.entries ++ [e] :=
        entries_insert_of_find?_eq_none hnew
      rw [List.append_cons, ← hend] at h
      rw [List.foldl_cons, ih h, hend, List.append_assoc]
      rfl

/-- Entries with different keys are kept as they are. -/
theorem entries_ofList {l : List (κ × α)} (h : (l.map Prod.fst).Nodup) : (ofList l).entries = l :=
  entries_foldl_insert (m := empty) h

end FinMap

namespace Grammar

variable {g g' : Grammar} {ks : List Kind}

/-- Parts with different kinds are the parts of the grammar. -/
theorem ofParts_parts (name : String) (base : Option String) (tokens : List (String × Int))
    (h : (ks.map Kind.name).Nodup) :
    (ofParts name base ks tokens).name = name ∧ (ofParts name base ks tokens).base = base ∧
      (ofParts name base ks tokens).kinds = ks ∧
      (ofParts name base ks tokens).vocabulary = .ofList tokens := by
  obtain ⟨hname, hbase, hkinds, hvocabulary⟩ :=
    foldl_define ks { empty name with base := base, vocabulary := .ofList tokens }
  exact ⟨hname, hbase, hkinds.trans (foldl_place h), hvocabulary⟩

/-- All questions about kinds and all questions about the types of names have one answer. -/
structure Matches (g g' : Grammar) : Prop where
  name : g'.name = g.name
  base : g'.base = g.base
  kinds : g'.kinds = g.kinds
  kind? : ∀ kind, g'.kind? kind = g.kind? kind
  parent? : ∀ kind, g'.parent? kind = g.parent? kind
  conforms : ∀ kind target, g'.conforms kind target = g.conforms kind target
  slot? : ∀ kind name, g'.slot? kind name = g.slot? kind name
  type? : ∀ name, g'.vocabulary.type? name = g.vocabulary.type? name

/-- What a grammar says of kinds is in its kinds and its base kind. -/
theorem Matches.of_parts (hname : g'.name = g.name) (hbase : g'.base = g.base)
    (hkinds : g'.kinds = g.kinds)
    (htypes : ∀ name, g'.vocabulary.type? name = g.vocabulary.type? name) : Matches g g' := by
  have hkind : ∀ kind, g'.kind? kind = g.kind? kind := by
    intro kind
    rw [Grammar.kind?, Grammar.kind?, hkinds]
  have hparent : ∀ kind, g'.parent? kind = g.parent? kind := by
    intro kind
    simp only [Grammar.parent?, isBase, hkind, hbase]
  have hupto : ∀ n kind, g'.lineageUpTo n kind = g.lineageUpTo n kind := by
    intro n
    induction n with
    | zero => exact fun _ => rfl
    | succ n ih => simp only [lineageUpTo, hparent, ih, implies_true]
  have hlineage : ∀ kind, g'.lineage kind = g.lineage kind := by
    intro kind
    rw [lineage, lineage, hkinds, hupto]
  refine ⟨hname, hbase, hkinds, hkind, hparent, ?_, ?_, htypes⟩
  · intro kind target
    rw [Grammar.conforms, Grammar.conforms, hlineage]
  · intro kind name
    simp only [Grammar.slot?, hlineage, hkind]

end Grammar

namespace Vocabulary

variable {ds order : List (String × Int)} {name : String} {type : Int}

theorem mem_types_iff : (name, type) ∈ (ofList ds).types.entries ↔
    LastBy Prod.fst (history ds) (name, type) :=
  FinMap.find?_eq_some_iff.symm.trans type?_ofList_eq_some_iff

theorem eof_mem_types (ds : List (String × Int)) :
    ∃ type, ("EOF", type) ∈ (ofList ds).types.entries := by
  have heof : ("EOF", endOfInput) ∈ history ds := List.mem_cons_self
  obtain ⟨⟨n, t⟩, hlast, hname⟩ := exists_lastBy Prod.fst heof
  obtain rfl : n = "EOF" := hname
  exact ⟨t, mem_types_iff.mpr hlast⟩

theorem eq_of_mem_types {d e : String × Int} (hd : d ∈ (ofList ds).types.entries)
    (he : e ∈ (ofList ds).types.entries) (hname : d.1 = e.1) : d = e :=
  (mem_types_iff.mp hd).unique (mem_types_iff.mp he) hname

/-- In whatever order the types of names are defined anew, the names have these types. -/
theorem type?_ofList_of_perm (h : order.Perm (ofList ds).types.entries) (name : String) :
    (ofList order).type? name = (ofList ds).type? name := by
  refine Option.ext fun type => ?_
  have hone : ∀ d ∈ order, ∀ e ∈ order, d.1 = e.1 → d = e :=
    fun d hd e he => eq_of_mem_types (h.mem_iff.mp hd) (h.mem_iff.mp he)
  have hwritten : (name, type) ∈ order ↔ (ofList ds).type? name = some type :=
    h.mem_iff.trans FinMap.find?_eq_some_iff.symm
  rw [← hwritten, type?_ofList_eq_some_iff, history, lastBy_cons, lastBy_iff_mem hone]
  -- The first definition is overruled, since `EOF` is among those that follow.
  refine or_iff_left ?_
  rintro ⟨-, hlater⟩
  obtain ⟨t, heof⟩ := eof_mem_types ds
  exact hlater ("EOF", t) (h.mem_iff.mpr heof) rfl

/-- If each name was defined once and no type is that of two names then the types have their names
too. -/
theorem name?_ofList_of_perm (h : order.Perm (ofList ds).types.entries)
    (honce : ((history ds).map Prod.fst).Nodup)
    (hone : ∀ d ∈ history ds, ∀ e ∈ history ds, d.2 = e.2 → d.1 = e.1) (type : Int) :
    (ofList order).name? type = (ofList ds).name? type := by
  refine Option.ext fun name => ?_
  have hnames : ∀ d ∈ history ds, ∀ e ∈ history ds, d.1 = e.1 → d = e :=
    fun d hd e he => List.inj_on_of_nodup_map honce hd he
  have htypes : ∀ d ∈ history ds, ∀ e ∈ history ds, d.2 = e.2 → d = e :=
    fun d hd e he htype => hnames d hd e he (hone d hd e he htype)
  have hsame : ∀ d, d ∈ history order ↔ d ∈ history ds := by
    rintro ⟨n, t⟩
    have hwritten : (n, t) ∈ order ↔ (n, t) ∈ history ds := by
      rw [h.mem_iff, mem_types_iff, lastBy_iff_mem hnames]
    rw [history, List.mem_cons, hwritten]
    exact or_iff_right_of_imp fun heof => heof ▸ List.mem_cons_self
  rw [name?_ofList_eq_some_iff, name?_ofList_eq_some_iff, lastBy_iff_mem htypes, lastBy_iff_mem,
    hsame]
  exact fun d hd e he => htypes d ((hsame d).mp hd) e ((hsame e).mp he)

end Vocabulary

/-! ### Grammars that definitions make -/

namespace Grammar

/-- What a grammar is made of, one after the other. -/
inductive Definition where
  | base (kind : String)
  | token (name : String) (type : Int32)
  | kind (k : Kind)

namespace Definition

def token? : Definition → Option (String × Int)
  | .token name type => some (name, type.toInt)
  | _ => none

def kind? : Definition → Option Kind
  | .kind k => some k
  | _ => none

end Definition

/-- Makes one definition. -/
def extend (g : Grammar) : Definition → Grammar
  | .base kind => g.withBase kind
  | .token name type => g.withToken name type.toInt
  | .kind k => g.define k

/-- The grammar that some definitions make. -/
def made (name : String) (ds : List Definition) : Grammar := ds.foldl extend (empty name)

theorem vocabulary_foldl_extend (ds : List Definition) (g : Grammar) :
    (ds.foldl extend g).vocabulary =
      (ds.filterMap Definition.token?).foldl (fun v d => v.define d.1 d.2) g.vocabulary := by
  induction ds generalizing g with
  | nil => rfl
  | cons d ds ih =>
      rw [List.foldl_cons, ih]
      cases d <;> rfl

theorem vocabulary_made (name : String) (ds : List Definition) :
    (made name ds).vocabulary = .ofList (ds.filterMap Definition.token?) :=
  vocabulary_foldl_extend ds (empty name)

theorem kinds_foldl_extend (ds : List Definition) (g : Grammar) :
    (ds.foldl extend g).kinds =
      (ds.filterMap Definition.kind?).foldl (fun js k => place k js) g.kinds := by
  induction ds generalizing g with
  | nil => rfl
  | cons d ds ih =>
      rw [List.foldl_cons, ih]
      cases d <;> rfl

theorem kinds_of_definitions (name : String) (ds : List Definition) :
    (Table.of (ds.filterMap Definition.kind?)).kinds = (made name ds).kinds :=
  (Table.kinds_of _).trans (kinds_foldl_extend ds (empty name)).symm

theorem isSigned_toInt (type : Int32) : Word.isSigned 31 type.toInt = true := by
  have hlow : -2147483648 ≤ type.toInt := type.minValue_le_toInt
  have hhigh : type.toInt ≤ 2147483647 := type.toInt_le
  have hcount : (Word.count 31 : Int) = 2147483648 := rfl
  rw [Word.isSigned, hcount, Bool.and_eq_true]
  exact ⟨decide_eq_true hlow, decide_eq_true (by omega)⟩

/-- The types of a grammar that definitions make have 32 bits. -/
theorem isSigned_of_mem_types {name : String} {ds : List Definition} {e : String × Int}
    (h : e ∈ (made name ds).vocabulary.types.entries) : Word.isSigned 31 e.2 = true := by
  rw [vocabulary_made] at h
  rcases List.mem_cons.mp (Vocabulary.mem_types_iff.mp h).mem with heof | hmem
  · have htype : e.2 = endOfInput := congrArg Prod.snd heof
    rw [htype]
    decide
  · obtain ⟨d, -, hd⟩ := List.mem_filterMap.mp hmem
    cases d with
    | token n type =>
        have htype : type.toInt = e.2 := congrArg Prod.snd (Option.some.inj hd)
        rw [← htype]
        exact isSigned_toInt type
    | base kind => cases hd
    | kind k => cases hd

/-- The written form of a grammar with its tokens in the given order, in which they are defined anew
on reading. -/
def writtenWith (g : Grammar) (order : List (String × Int)) : Json :=
  .obj [("name", .str g.name), ("base_kind", .ofOption .str g.base),
    ("kinds", .ofList Kind.toJson g.kinds),
    ("tokens", .obj (order.map fun e => (e.1, .int e.2)))]

theorem toJson_eq (g : Grammar) : g.toJson = g.writtenWith g.vocabulary.types.entries := rfl

/-- What is written is read part by part and defined anew. -/
theorem ofJson?_writtenWith {g : Grammar} {order : List (String × Int)}
    (horder : (order.map Prod.fst).Nodup) (htypes : ∀ e ∈ order, Word.isSigned 31 e.2 = true) :
    ofJson? (g.writtenWith order) = some (ofParts g.name g.base g.kinds order) := by
  have hbase := Json.optional?_text g.base
  have hkinds := Json.list?_ofList Kind.ofJson?_toJson g.kinds
  have htokens : Json.map? Json.tokenType? (.obj (order.map fun e => (e.1, .int e.2))) =
      some (FinMap.ofList order) := by
    refine Json.map?_obj fun e he => ?_
    simp [Json.tokenType?, Json.signed?, Json.int?, htypes e he]
  simp [ofJson?, writtenWith, Json.record?, Json.field?, Json.fieldOpt?, Json.fieldD?, Json.text?,
    List.lookup_cons, hbase, hkinds, htokens, FinMap.entries_ofList horder]

/--
**A grammar that is written and read is the grammar.**  Whatever definitions a grammar is made of,
and in whatever order its tokens are written, the written form is read, and the grammar that comes
of it has the same name, base kind and kinds and gives the same answers to all questions about kinds
and about the types of names.  An index of the kinds that is kept up with the definitions, and is
not written, comes out the same from the kinds that are read.  And if each name of a token was
defined once, `EOF` among them, and no type is that of two names, then the types have the same
names.
-/
theorem written_form_faithful (name : String) (ds : List Definition)
    (order : List (String × Int))
    (horder : order.Perm (made name ds).vocabulary.types.entries) :
    (made name ds).toJson = (made name ds).writtenWith (made name ds).vocabulary.types.entries ∧
    ∃ g', ofJson? ((made name ds).writtenWith order) = some g' ∧
      (made name ds).Matches g' ∧
      (∀ kind, (Table.of g'.kinds).index.find? kind =
          (Table.of (ds.filterMap Definition.kind?)).index.find? kind ∧
        (Table.of g'.kinds).kind? kind = (made name ds).kind? kind) ∧
      (((Vocabulary.history (ds.filterMap Definition.token?)).map Prod.fst).Nodup →
        (∀ d ∈ Vocabulary.history (ds.filterMap Definition.token?),
          ∀ e ∈ Vocabulary.history (ds.filterMap Definition.token?), d.2 = e.2 → d.1 = e.1) →
        ∀ type, g'.vocabulary.name? type = (made name ds).vocabulary.name? type) := by
  have hnodup : (order.map Prod.fst).Nodup :=
    (horder.map Prod.fst).nodup_iff.mpr (made name ds).vocabulary.types.distinct
  have htypes : ∀ e ∈ order, Word.isSigned 31 e.2 = true :=
    fun e he => isSigned_of_mem_types (horder.mem_iff.mp he)
  obtain ⟨hname, hbase, hkinds, hvocabulary⟩ :=
    ofParts_parts (made name ds).name (made name ds).base order (made name ds).distinct
  have hperm := horder
  rw [vocabulary_made] at hperm
  refine ⟨toJson_eq _, _, ofJson?_writtenWith hnodup htypes, ?_, ?_, ?_⟩
  · refine .of_parts hname hbase hkinds fun n => ?_
    rw [hvocabulary, vocabulary_made]
    exact Vocabulary.type?_ofList_of_perm hperm n
  · intro kind
    have hread : (Table.of (made name ds).kinds).kinds = (made name ds).kinds :=
      Table.kinds_of_nodup (made name ds).distinct
    rw [hkinds]
    refine ⟨(Table.right_of _).index_eq (Table.right_of _) ?_ kind, ?_⟩
    · rw [hread, kinds_of_definitions name]
    · rw [(Table.right_of _).kind?_eq, hread]
      rfl
  · intro honce hone type
    rw [hvocabulary, vocabulary_made]
    exact Vocabulary.name?_ofList_of_perm hperm honce hone type

/-- A grammar with a kind that is defined twice; its tokens are written last first. -/
theorem written_form_faithful_sums :
    let ds : List Definition := [.base "Node", .kind ⟨"Sum", some "Node", []⟩, .token "NUM" 1,
      .kind ⟨"Num", some "Sum", [.ofItem (.terminal "NUM") .single]⟩,
      .kind ⟨"Sum", none, [.ofItem (.node "Num") .multi]⟩]
    let g := made "sums" ds
    let order := [("NUM", 1), ("EOF", endOfInput)]
    order.Perm g.vocabulary.types.entries ∧
      ∃ g', ofJson? (g.writtenWith order) = some g' ∧ g.Matches g' ∧
        ∀ type, g'.vocabulary.name? type = g.vocabulary.name? type := by
  intro ds g order
  have horder : order.Perm g.vocabulary.types.entries := by decide +kernel
  obtain ⟨-, g', hread, hmatches, -, hnames⟩ := written_form_faithful "sums" ds order horder
  exact ⟨horder, g', hread, hmatches, hnames (by decide +kernel) (by decide +kernel)⟩

end Grammar

end TreeSchema
