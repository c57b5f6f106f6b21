/-
The written form of grammars.

A grammar is an object with its name, base kind, kinds and tokens, of which only the
name has to be there.  Reading one makes its definitions anew in the order written.
-/
import TreeSchema.Json.Reader
import TreeSchema.Json.Writer
import TreeSchema.Grammar.Basic

namespace TreeSchema

open Json

def Arity.toJson : Arity → Json
  | .single => str "Single"
  | .multi => str "Multi"

def Arity.ofJson? (j : Json) : Option Arity := do
  match ← j.variant? with
  | "Single" => some .single
  | "Multi" => some .multi
  | _ => none

def Accessor.toJson : Accessor → Json
  | .default => str "Default"
  | .label => str "Label"

def Accessor.ofJson? (j : Json) : Option Accessor := do
  match ← j.variant? with
  | "Default" => some .default
  | "Label" => some .label
  | _ => none

def Item.toJson : Item → Json
  | .terminal symbol => obj [("type", str "Terminal"), ("name", str symbol)]
  | .node kind => obj [("type", str "Node"), ("name", str kind)]

def Item.ofJson? (j : Json) : Option Item := do
  let (type, name) ← j.labelled? "type" "name"
  match type with
  | "Terminal" => name.text?.map .terminal
  | "Node" => name.text?.map .node
  | _ => none

def Slot.toJson (s : Slot) : Json :=
  obj [("name", str s.name), ("arity", s.arity.toJson), ("item", s.item.toJson),
    ("accessor", s.accessor.toJson)]

def Slot.ofJson? (j : Json) : Option Slot := do
  let fs ← j.record? ["name", "arity", "item", "accessor"]
  return ⟨← field? fs "name" text?, ← field? fs "arity" Arity.ofJson?,
    ← field? fs "item" Item.ofJson?, ← field? fs "accessor" Accessor.ofJson?⟩

def Kind.toJson (k : Kind) : Json :=
  obj [("name", str k.name), ("parent", ofOption str k.parent),
    ("slots", ofList Slot.toJson k.slots)]

def Kind.ofJson? (j : Json) : Option Kind := do
  let fs ← j.record? ["name", "parent", "slots"]
  return ⟨← field? fs "name" text?, ← fieldOpt? fs "parent" text?,
    ← fieldD? fs "slots" [] (list? Slot.ofJson?)⟩

namespace Grammar

def toJson (g : Grammar) : Json :=
  obj [("name", str g.name), ("base_kind", ofOption str g.base),
    ("kinds", ofList Kind.toJson g.kinds), ("tokens", ofMap int g.vocabulary.types)]

def ofJson? (j : Json) : Option Grammar := do
  let fs ← j.record? ["name", "base_kind", "kinds", "tokens"]
  let tokens ← fieldD? fs "tokens" ∅ (map? tokenType?)
  return ofParts (← field? fs "name" text?) (← fieldOpt? fs "base_kind" text?)
    (← fieldD? fs "kinds" [] (list? Kind.ofJson?)) tokens.entries

/-- The text of a grammar. -/
def render (g : Grammar) : String := g.toJson.render

/-- The grammar that a text describes. -/
def read? (text : String) : Option Grammar := (Json.read? text).bind ofJson?

end Grammar

end TreeSchema
