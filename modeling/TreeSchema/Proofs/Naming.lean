/-
What a vocabulary knows after some definitions.

Each definition is entered in both directions, and overrules only what stands there for the same
name in the one and for the same type in the other.  So the type of a name is that of the last
definition of the name, and the name of a type is that of the last definition of the type.  These
need not be one definition.  If a name is given another type later, then its old type still has
that name, unless the type is defined anew as well, and the name no longer leads back.  The end of
the input is no exception: it is entered first and is overruled like any other definition.
-/
import TreeSchema.Grammar.Basic

namespace TreeSchema

/-! ### The last of a list by a key -/

section Last

variable {α κ : Type} {key : α → κ} {l l' : List α} {a c x : α}

/-- In a list there is an entry, and none after it has the same key. -/
def LastBy (key : α → κ) (l : List α) (a : α) : Prop :=
  ∃ before after, l = before ++ a :: after ∧ ∀ x ∈ after, key x ≠ key a

theorem not_lastBy_nil : ¬ LastBy key [] a := by
  rintro ⟨before, after, h, -⟩
  simp at h

theorem lastBy_cons : LastBy key (x :: l) a ↔ LastBy key l a ∨ a = x ∧ ∀ y ∈ l, key y ≠ key x := by
  constructor
  · rintro ⟨before, after, h, hafter⟩
    cases before with
    | nil =>
        obtain ⟨rfl, rfl⟩ := List.cons.inj h
        exact .inr ⟨rfl, hafter⟩
    | cons y before =>
        obtain ⟨-, rfl⟩ := List.cons.inj h
        exact .inl ⟨before, after, rfl, hafter⟩
  · rintro (⟨before, after, rfl, hafter⟩ | ⟨rfl, hlater⟩)
    · exact ⟨x :: before, after, rfl, hafter⟩
    · exact ⟨[], l, rfl, hlater⟩

theorem LastBy.mem (h : LastBy key l a) : a ∈ l := by
  obtain ⟨before, after, rfl, -⟩ := h
  simp

theorem LastBy.append_left (h : LastBy key l a) (before : List α) :
    LastBy key (before ++ l) a := by
  obtain ⟨b, after, rfl, hafter⟩ := h
  exact ⟨before ++ b, after, by rw [List.append_assoc], hafter⟩

/-- The last entry with a key is the only one. -/
theorem LastBy.unique (ha : LastBy key l a) (hc : LastBy key l c) (h : key a = key c) : a = c := by
  induction l with
  | nil => exact (not_lastBy_nil ha).elim
  | cons x l ih =>
      rcases lastBy_cons.mp ha with ha | ⟨hax, hlater⟩
      · rcases lastBy_cons.mp hc with hc | ⟨hcx, hlater⟩
        · exact ih ha hc
        · exact absurd (hcx ▸ h) (hlater a ha.mem)
      · rcases lastBy_cons.mp hc with hc | ⟨hcx, -⟩
        · exact absurd (hax ▸ h.symm) (hlater c hc.mem)
        · rw [hax, hcx]

theorem exists_lastBy (key : α → κ) (h : a ∈ l) : ∃ c, LastBy key l c ∧ key c = key a := by
  induction l generalizing a with
  | nil => cases h
  | cons x l ih =>
      by_cases hlater : ∃ y ∈ l, key y = key a
      · obtain ⟨y, hy, hkey⟩ := hlater
        obtain ⟨c, hc, hkey'⟩ := ih hy
        exact ⟨c, lastBy_cons.mpr (.inl hc), hkey'.trans hkey⟩
      · rcases List.mem_cons.mp h with hax | ha
        · refine ⟨a, lastBy_cons.mpr (.inr ⟨hax, ?_⟩), rfl⟩
          exact fun y hy hkey => hlater ⟨y, hy, hkey.trans (congrArg key hax).symm⟩
        · exact absurd ⟨a, ha, rfl⟩ hlater

/-- Where entries with one key are one entry, each is the last with its key. -/
theorem lastBy_iff_mem (h : ∀ x ∈ l, ∀ y ∈ l, key x = key y → x = y) : LastBy key l a ↔ a ∈ l := by
  refine ⟨LastBy.mem, fun ha => ?_⟩
  obtain ⟨c, hc, hkey⟩ := exists_lastBy key ha
  exact h c hc.mem a ha hkey ▸ hc

end Last

/-- A map into which entries are put one by one gives for a key what the last entry with the key
says, and what it gave before if there is none. -/
theorem FinMap.find?_foldl_insert {α κ β : Type} [DecidableEq κ] (key : α → κ) (value : α → β)
    (l : List α) (m : FinMap κ β) {k : κ} {v : β} :
    (l.foldl (fun m a => m.insert (key a) (value a)) m).find? k = some v ↔
      (∃ a, LastBy key l a ∧ key a = k ∧ value a = v) ∨
        (∀ a ∈ l, key a ≠ k) ∧ m.find? k = some v := by
  induction l generalizing m with
  | nil => simp [not_lastBy_nil]
  | cons x l ih =>
      rw [List.foldl_cons, ih, find?_insert]
      simp only [lastBy_cons, List.forall_mem_cons, or_and_right, exists_or]
      rw [or_assoc]
      refine or_congr_right ?_
      by_cases hx : key x = k
      · rw [if_pos hx, Option.some.injEq]
        constructor
        · rintro ⟨hlater, hv⟩
          exact .inl ⟨x, ⟨rfl, fun y hy => hx ▸ hlater y hy⟩, hx, hv⟩
        · rintro (⟨a, ⟨rfl, hlater⟩, -, hv⟩ | ⟨⟨hne, -⟩, -⟩)
          · exact ⟨fun y hy => hx ▸ hlater y hy, hv⟩
          · exact absurd hx hne
      · rw [if_neg hx]
        constructor
        · rintro ⟨hlater, hv⟩
          exact .inr ⟨⟨hx, hlater⟩, hv⟩
        · rintro (⟨a, ⟨rfl, -⟩, ha, -⟩ | ⟨⟨-, hlater⟩, hv⟩)
          · exact absurd ha hx
          · exact ⟨hlater, hv⟩

/-! ### What the definitions leave behind -/

namespace Vocabulary

variable {ds before after : List (String × Int)} {name : String} {type : Int}

/-- All definitions that a vocabulary was given: that of the end of the input comes first. -/
def history (ds : List (String × Int)) : List (String × Int) := ("EOF", endOfInput) :: ds

theorem types_foldl_define (v : Vocabulary) :
    (ds.foldl (fun v d => v.define d.1 d.2) v).types =
      ds.foldl (fun m d => m.insert d.1 d.2) v.types := by
  induction ds generalizing v with
  | nil => rfl
  | cons d ds ih => exact ih _

theorem names_foldl_define (v : Vocabulary) :
    (ds.foldl (fun v d => v.define d.1 d.2) v).names =
      ds.foldl (fun m d => m.insert d.2 d.1) v.names := by
  induction ds generalizing v with
  | nil => rfl
  | cons d ds ih => exact ih _

/-- A name has the type that its last definition gave it. -/
theorem type?_ofList_eq_some_iff :
    (ofList ds).type? name = some type ↔ LastBy Prod.fst (history ds) (name, type) := by
  rw [type?, ofList, types_foldl_define]
  refine (FinMap.find?_foldl_insert Prod.fst Prod.snd (history ds) ∅).trans ?_
  constructor
  · rintro (⟨⟨n, t⟩, hlast, rfl, rfl⟩ | ⟨-, hnone⟩)
    · exact hlast
    · cases hnone
  · exact fun hlast => .inl ⟨(name, type), hlast, rfl, rfl⟩

/-- A type has the name that its last definition gave it. -/
theorem name?_ofList_eq_some_iff :
    (ofList ds).name? type = some name ↔ LastBy Prod.snd (history ds) (name, type) := by
  rw [name?, ofList, names_foldl_define]
  refine (FinMap.find?_foldl_insert Prod.snd Prod.fst (history ds) ∅).trans ?_
  constructor
  · rintro (⟨⟨n, t⟩, hlast, rfl, rfl⟩ | ⟨-, hnone⟩)
    · exact hlast
    · cases hnone
  · exact fun hlast => .inl ⟨(name, type), hlast, rfl, rfl⟩

/-- The name of a type leads back to the type exactly if the definition that gave the type its name
is also the last one of the name. -/
theorem leads_back_iff (hsplit : history ds = before ++ (name, type) :: after)
    (hlast : ∀ d ∈ after, d.2 ≠ type) :
    (ofList ds).name? type = some name ∧
      ((ofList ds).type? name = some type ↔ ∀ d ∈ after, d.1 ≠ name) := by
  refine ⟨name?_ofList_eq_some_iff.mpr ⟨before, after, hsplit, hlast⟩, ?_⟩
  rw [type?_ofList_eq_some_iff]
  constructor
  · intro hback d hd hname
    -- The last definition of the name would be among those that come later.
    obtain ⟨c, hc, hcd⟩ := exists_lastBy Prod.fst hd
    have hwhole : LastBy Prod.fst (history ds) c := by
      rw [hsplit, List.append_cons]
      exact hc.append_left _
    have hsame : c = (name, type) := hwhole.unique hback (hcd.trans hname)
    exact hlast c hc.mem (by rw [hsame])
  · exact fun hlater => ⟨before, after, hsplit, hlater⟩

/-- With one type for each name the two directions are inverse. -/
theorem type?_of_name? (hone : ∀ d ∈ history ds, ∀ e ∈ history ds, d.1 = e.1 → d.2 = e.2)
    (h : (ofList ds).name? type = some name) : (ofList ds).type? name = some type := by
  rw [type?_ofList_eq_some_iff, lastBy_iff_mem]
  · exact (name?_ofList_eq_some_iff.mp h).mem
  · exact fun d hd e he hname => Prod.ext hname (hone d hd e he hname)

/-- The end of the input keeps its type exactly if the last definition of its name says so. -/
theorem type?_eof_iff : (ofList ds).type? "EOF" = some endOfInput ↔
    ∀ type, LastBy Prod.fst ds ("EOF", type) → type = endOfInput := by
  rw [type?_ofList_eq_some_iff, history, lastBy_cons]
  constructor
  · rintro (hlast | ⟨-, hlater⟩) type h
    · exact congrArg Prod.snd (h.unique hlast rfl)
    · exact absurd rfl (hlater ("EOF", type) h.mem)
  · intro h
    by_cases hdefined : ∃ d ∈ ds, d.1 = "EOF"
    · obtain ⟨d, hd, heof⟩ := hdefined
      obtain ⟨⟨n, t⟩, hlast, hname⟩ := exists_lastBy Prod.fst hd
      obtain rfl : n = "EOF" := hname.trans heof
      exact .inl (h t hlast ▸ hlast)
    · exact .inr ⟨rfl, fun d hd heof => hdefined ⟨d, hd, heof⟩⟩

end Vocabulary

theorem Grammar.vocabulary_foldl_withToken (g : Grammar) (ds : List (String × Int)) :
    (ds.foldl (fun g d => g.withToken d.1 d.2) g).vocabulary =
      ds.foldl (fun v d => v.define d.1 d.2) g.vocabulary := by
  induction ds generalizing g with
  | nil => rfl
  | cons d ds ih => exact ih _

/--
**When a name leads back to its type.**  Whether made in a vocabulary or in a grammar, a row of
definitions gives each type the name that its last definition says, and each name the type that its
last definition says, that of the end of the input being the first of all.  So the name of a type
leads back to the type exactly if no later definition is of that name.  That is so for all types if
no name is given two types; and `EOF` has the type of the end of the input exactly if that is what
the last definition of `EOF` says, if there is another one at all.
-/
theorem names_lead_back (grammar : String) (ds : List (String × Int)) :
    (ds.foldl (fun g d => g.withToken d.1 d.2) (Grammar.empty grammar)).vocabulary = .ofList ds ∧
      (∀ name type,
        ((Vocabulary.ofList ds).name? type = some name ↔
          LastBy Prod.snd (Vocabulary.history ds) (name, type)) ∧
        ((Vocabulary.ofList ds).type? name = some type ↔
          LastBy Prod.fst (Vocabulary.history ds) (name, type))) ∧
      (∀ before name type after, Vocabulary.history ds = before ++ (name, type) :: after →
        (∀ d ∈ after, d.2 ≠ type) →
        (Vocabulary.ofList ds).name? type = some name ∧
          ((Vocabulary.ofList ds).type? name = some type ↔ ∀ d ∈ after, d.1 ≠ name)) ∧
      ((∀ d ∈ Vocabulary.history ds, ∀ e ∈ Vocabulary.history ds, d.1 = e.1 → d.2 = e.2) →
        ∀ name type, (Vocabulary.ofList ds).name? type = some name →
          (Vocabulary.ofList ds).type? name = some type) ∧
      ((Vocabulary.ofList ds).type? "EOF" = some endOfInput ↔
        ∀ type, LastBy Prod.fst ds ("EOF", type) → type = endOfInput) := by
  refine ⟨Grammar.vocabulary_foldl_withToken _ ds, ?_, ?_, ?_, Vocabulary.type?_eof_iff⟩
  · exact fun _ _ => ⟨Vocabulary.name?_ofList_eq_some_iff, Vocabulary.type?_ofList_eq_some_iff⟩
  · exact fun _ _ _ _ hsplit hlast => Vocabulary.leads_back_iff hsplit hlast
  · exact fun hone _ _ h => Vocabulary.type?_of_name? hone h

/-- A name with two types: the first type still has the name, which leads to the second.  With `EOF`
as the name, the first type is that of the end of the input. -/
theorem eof_does_not_lead_back :
    (Vocabulary.ofList [("EOF", 5)]).name? endOfInput = some "EOF" ∧
      (Vocabulary.ofList [("EOF", 5)]).type? "EOF" = some 5 ∧
      (Vocabulary.ofList [("A", 1), ("A", 2)]).name? 1 = some "A" ∧
      (Vocabulary.ofList [("A", 1), ("A", 2)]).type? "A" = some 2 := by
  decide +kernel

end TreeSchema
