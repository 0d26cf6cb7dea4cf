import SchemaCompiler.Model.Reference

/-! Types as they are spelled in a module. A type that contains itself, or one of its group that is
placed no earlier, is boxed unless a list or map stands in between. -/

namespace SchemaCompiler

inductive TypeText where
  | builtin (name : String)
  | base (name : String)
  /-- An item of the same module. -/
  | item (id : TypeId) (name : String) (boxed : Bool)
  /-- An item of another module of the same output. -/
  | foreign (id : TypeId) (moduleName : String) (name : String)
  /-- A type that the output does not contain. -/
  | canonical (apiModule : String) (moduleName : String) (name : String)
  | vec (item : TypeText)
  | dict (value : TypeText)
deriving DecidableEq, Repr

namespace TypeText

def render : TypeText → String
  | builtin name => name
  | base name => "super::base::" ++ name
  | item _ name boxed => if boxed then "Box<" ++ name ++ ">" else name
  | foreign _ moduleName name => "super::" ++ moduleName ++ "::" ++ name
  | canonical apiModule moduleName name => apiModule ++ "::" ++ moduleName ++ "::" ++ name
  | vec t => "Vec<" ++ t.render ++ ">"
  | dict t => "BTreeMap<String, " ++ t.render ++ ">"

def anyValue : TypeText := builtin "serde_json::Value"

end TypeText

def Primitive.text : Primitive → TypeText
  | string => .builtin "String"
  | integer => .builtin "i64"
  | float => .builtin "f64"
  | boolean => .builtin "bool"
  | any => .anyValue

/-- What the spelling of a type depends on. -/
structure Spelling where
  model : Model
  apiModule : String
  /-- The types of the group in their order. -/
  placed : List TypeId

namespace Spelling

/-- Whether `target` is placed no earlier than `current`. -/
def isBackEdge (s : Spelling) (target current : TypeId) : Bool :=
  match s.placed.idxOf? target, s.placed.idxOf? current with
  | some t, some c => c ≤ t
  | _, _ => false

def canonicalText (s : Spelling) (q : QualifiedName) : TypeText :=
  .canonical s.apiModule (Naming.moduleName q.group q.version) q.name

/-- A registered type within `current`. `direct` says that no list or map stands in between. -/
def namedText (s : Spelling) (current : TypeId) (direct : Bool) (id : TypeId) : TypeText :=
  let target := s.model.resolve id
  match s.model.refer target current with
  | some (.itself name) => .item target name direct
  | some (.sameGroup name) => .item target name (direct && s.isBackEdge target current)
  | some (.external moduleName name) => .foreign target moduleName name
  | some (.canonical q) => s.canonicalText q
  | none => .anyValue

def refText (s : Spelling) (current : TypeId) (direct : Bool) (q : QualifiedName) : TypeText :=
  match s.model.find? (GroupKey.of q) ((GroupKey.of q).qualify q.name) with
  | some id => s.namedText current direct id
  | none => s.canonicalText q

def typeText (s : Spelling) (current : TypeId) (direct : Bool) : TypeExpr → TypeText
  | .primitive p => p.text
  | .wellKnown w => .base w.name
  | .type id => s.namedText current direct id
  | .ref q => s.refText current direct q
  | .bareList => .vec .anyValue
  | .list item => .vec (s.typeText current false item)
  | .bareMap => .dict .anyValue
  | .map value => .dict (s.typeText current false value)
  | .union members =>
    if members = [.primitive .integer, .primitive .string] then .base "IntOrString" else .anyValue

end Spelling

end SchemaCompiler
