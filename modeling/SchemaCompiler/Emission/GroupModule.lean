import SchemaCompiler.Emission.Comment
import SchemaCompiler.Emission.Item
import SchemaCompiler.Error
import SchemaCompiler.Text.Quoted

/-! The text of the module of a group. -/

namespace SchemaCompiler

namespace Emission

def unlines (lines : List String) : String :=
  String.join (lines.map (·.push '\n'))

def indented (line : String) : String := "    " ++ line

def optionalAttribute : String :=
  "#[serde(default, skip_serializing_if = \"Option::is_none\")]"

def fieldType (f : Field) : String :=
  if f.optional then "Option<" ++ f.type.render ++ ">" else f.type.render

def fieldAttributes (f : Field) : List String :=
  (f.rename.map fun name => "#[serde(rename = " ++ Text.quoted name ++ ")]").toList ++
    if f.optional then [optionalAttribute] else []

def fieldLines (f : Field) : List String :=
  commentLines 4 f.description ++ (fieldAttributes f).map indented ++
    [indented ("pub " ++ f.name ++ ": " ++ fieldType f ++ ",")]

def pluralText : Option String → String
  | some plural => "Some(" ++ Text.quoted plural ++ ")"
  | none => "None"

def resourceLines (name : String) (r : ApiResource) : List String := [
  "",
  "impl Resource for " ++ name ++ " \x7b",
  "    const API_VERSION: &'static str = " ++ Text.quoted r.apiVersion ++ ";",
  "    const KIND: &'static str = " ++ Text.quoted r.kind ++ ";",
  "    const PLURAL: Option<&'static str> = " ++ pluralText r.plural ++ ";",
  "\x7d",
  "",
  "impl " ++ Model.scopeName r.namespaced ++ " for " ++ name ++ " \x7b\x7d"]

def recordLines (name : String) (fields : List Field) (resource : Option ApiResource) : List String :=
  ["#[derive(Clone, Debug, Default, PartialEq, Serialize, Deserialize)]",
    "pub struct " ++ name ++ " \x7b"] ++
  fields.flatMap fieldLines ++ ["\x7d"] ++ (resource.map (resourceLines name)).getD []

/-- A synonym of a type without a name says nothing, so that it is written as a record. -/
def itemLines (i : Item) : List String :=
  "" :: commentLines 0 i.description ++
    match i.body with
    | .synonym target =>
      if target.render.isEmpty then recordLines i.name [] none
      else ["pub type " ++ i.name ++ " = " ++ target.render ++ ";"]
    | .record fields resource => recordLines i.name fields resource

def generatedBy : String := "//! Generated by kube-typegen. Do not edit."

def refLines (refs : List GroupKey) : List String :=
  if refs.isEmpty then []
  else ["//!", "//! Referenced groups: " ++
    ", ".intercalate (refs.map fun k => "`" ++ k.display ++ "`")]

def traitNames : List String := ["ClusterResource", "NamespacedResource"]

/-- The names to be imported from the base module, in order. Other names of that module are spelled
with their path, since types of the model may share them. -/
def importedTraits (baseTypes : List String) : List String :=
  let traits := baseTypes.filter traitNames.contains
  if traits.isEmpty then [] else setOf ("Resource" :: traits)

def importLines (view : FinalizedGroup) : List String :=
  (if view.generics.contains "Dict" then ["use std::collections::BTreeMap;"] else []) ++
    match importedTraits view.baseTypes with
    | [] => []
    | traits => ["use super::base::\x7b" ++ ", ".intercalate traits ++ "\x7d;"]

def groupLines (key : GroupKey) (view : FinalizedGroup) (items : List Item) : List String :=
  ["//! Types of the `" ++ key.display ++ "` API group", "//!", generatedBy] ++
    refLines view.refs ++ ["", "use serde::\x7bDeserialize, Serialize\x7d;"] ++ importLines view ++
    items.flatMap itemLines ++ [""]

/-- Names of modules that are not those of groups. -/
def reservedModules : List String := ["base", "mod"]

def spelling (m : Model) (apiModule : String) (view : FinalizedGroup) : Spelling :=
  { model := m, apiModule, placed := view.types }

def groupItems (m : Model) (apiModule : String) (view : FinalizedGroup) : List Item :=
  (spelling m apiModule view).items

/-- The text of a group's module, once the group has been finalized. -/
def groupText (m : Model) (apiModule : String) (key : GroupKey) : Except Error String :=
  match m.finalized? key with
  | none => .error (.unwritten (.unfinished key.display))
  | some view =>
    if reservedModules.contains key.moduleName then
      .error (.unwritten (.reservedModule key.display key.moduleName))
    else .ok (unlines (groupLines key view (groupItems m apiModule view)))

end Emission

end SchemaCompiler
