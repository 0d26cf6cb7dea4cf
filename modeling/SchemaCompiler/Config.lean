import SchemaCompiler.Error
import SchemaCompiler.Text.Basic
import SchemaCompiler.Value.Decoding
import SchemaCompiler.Yaml.Document

/-! The configuration of a run. Every key may be left out, and a blank text leaves all of them out. -/

namespace SchemaCompiler

/-- When objects are taken for well-known types. -/
structure InferenceConfig where
  enabled : Bool := true
  /-- How many properties beyond those of the type an object may have. -/
  maxUnknownFields : Nat := 0
  /-- Types that no object is taken for. -/
  disabled : List String := []
deriving DecidableEq, Repr

structure Config where
  /-- The module path under which the well-known types are found. -/
  apiModule : String := "k8s_models"
  inference : InferenceConfig := {}
deriving DecidableEq, Repr

namespace InferenceConfig

def allows (c : InferenceConfig) (type : String) : Bool :=
  c.enabled && !c.disabled.contains type

def ofValue? (room : Nat) (v : Value) : Option InferenceConfig := do
  let default : InferenceConfig := {}
  let fields ← v.record? .written ["enabled", "max_unknown_fields", "disabled"] room
  let enabled ← fields.optional "enabled" default.enabled Value.bool?
  let maxUnknownFields ← fields.optional "max_unknown_fields" default.maxUnknownFields Value.count?
  let disabled ← fields.optional "disabled" default.disabled (Value.texts? .written (room - 1))
  some { enabled, maxUnknownFields, disabled }

end InferenceConfig

namespace Config

def ofValue? (room : Nat) (v : Value) : Option Config := do
  let default : Config := {}
  let fields ← v.record? .written ["api_module", "inference"] room
  let apiModule ← fields.optional "api_module" default.apiModule Value.text?
  let inference ← fields.optional "inference" default.inference (InferenceConfig.ofValue? (room - 1))
  some { apiModule, inference }

def ofText (text : String) : Except Error Config :=
  if text.toList.all Text.isBlank then .ok {}
  else
    match (Yaml.document? text).bind (ofValue? Yaml.nesting) with
    | some config => .ok config
    | none => .error .unreadYaml

end Config

end SchemaCompiler
