/-
The written form of configurations.

Every field may be left out and then stands for its value in the standard
configuration.
-/
import TreeSchema.Json.Reader
import TreeSchema.Json.Writer
import TreeSchema.Config.Basic

namespace TreeSchema

open Json

def NameSet.toJson (s : NameSet) : Json := Json.ofList str s.toList

def NameSet.ofJson? (j : Json) : Option NameSet := (j.list? text?).map .ofList

namespace KindRule

def toJson (r : KindRule) : Json :=
  obj [("ignored_properties", r.ignored.toJson), ("forced_slots", ofList str r.forced),
    ("slot_renames", ofMap str r.renames)]

def ofJson? (j : Json) : Option KindRule := do
  let fs ← j.record? ["ignored_properties", "forced_slots", "slot_renames"]
  return ⟨← fieldD? fs "ignored_properties" ∅ NameSet.ofJson?,
    ← fieldD? fs "forced_slots" [] (list? text?), ← fieldD? fs "slot_renames" ∅ (map? text?)⟩

end KindRule

namespace Config

def toJson (c : Config) : Json :=
  obj [("transparent", c.transparent.toJson), ("treat_as_token", c.flattened.toJson),
    ("dropped", c.dropped.toJson), ("entity_names", ofMap str c.entityNames),
    ("ignored_tokens", c.ignoredTokens.toJson), ("rules", ofMap KindRule.toJson c.rules),
    ("positions", bool c.positions), ("max_depth", ofNat c.maxDepth)]

def ofJson? (j : Json) : Option Config := do
  let fs ← j.record? ["transparent", "treat_as_token", "dropped", "entity_names",
    "ignored_tokens", "rules", "positions", "max_depth"]
  return ⟨← fieldD? fs "transparent" ∅ NameSet.ofJson?,
    ← fieldD? fs "treat_as_token" ∅ NameSet.ofJson?, ← fieldD? fs "dropped" ∅ NameSet.ofJson?,
    ← fieldD? fs "entity_names" ∅ (map? text?), ← fieldD? fs "ignored_tokens" ∅ NameSet.ofJson?,
    ← fieldD? fs "rules" ∅ (map? KindRule.ofJson?),
    ← fieldD? fs "positions" standard.positions bool?,
    ← fieldD? fs "max_depth" standard.maxDepth size?⟩

/-- The configuration that a text describes. -/
def read? (text : String) : Option Config := (Json.read? text).bind ofJson?

end Config

end TreeSchema
