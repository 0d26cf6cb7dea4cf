import SchemaCompiler.Model.Expr
import SchemaCompiler.Schema.Shape

/-! The type that a schema denotes. Lists and maps are layers around a core, and the core is an
expression that is complete, an object to be registered, or a reference to be followed. -/

namespace SchemaCompiler

inductive Layer where
  | list
  | map
deriving DecidableEq, Repr

inductive Core where
  | expr (e : TypeExpr)
  | object (body : Schema)
  | reference (path : String)
deriving Repr

structure Layered where
  layers : List Layer
  core : Core
deriving Repr

def Layer.around : Layer → TypeExpr → TypeExpr
  | list, e => .list e
  | map, e => .map e

def wrap (layers : List Layer) (e : TypeExpr) : TypeExpr :=
  layers.foldr Layer.around e

def StringFormat.expr : StringFormat → TypeExpr
  | plain => .primitive .string
  | byte => .wellKnown .base64
  | dateTime => .wellKnown .time
  | idnHostname => .wellKnown .idnHostname
  | intOrString => .union [.primitive .integer, .primitive .string]

/-- The core of the schema `node` if it has no layers. -/
def Shape.core (node : Schema) : Shape → Core
  | object _ => .object node
  | map _ => .expr .bareMap
  | integer => .expr (.primitive .integer)
  | boolean => .expr (.primitive .boolean)
  | number float => .expr (.primitive (if float then .float else .integer))
  | string format => .expr format.expr
  | array _ => .expr .bareList
  | reference path => .reference path
  | preserveUnknown => .expr (.primitive .any)
  | intOrString => .expr (.wellKnown .intOrString)

namespace Schema

/-- Takes a schema apart. The body of an object is the schema that was met first, with what wraps
it; `outer` is that schema once a wrapper has been passed. -/
def layered (context : String) (outer : Option Schema) : Schema → Except Error Layered
  | s@⟨type, _, _, _, _, items, additional, reference, allOf, _, _, _, _⟩ =>
    match type, reference, allOf with
    | none, none, [single] => layered context (some (outer.getD s)) single
    | _, _, _ =>
      match shape context s with
      | .error e => .error e
      | .ok (.map (some _)) =>
        match additional with
        | some (.schema value) =>
          (layered context none value).map fun l => { l with layers := .map :: l.layers }
        | _ => .ok ⟨[], .expr .bareMap⟩
      | .ok (.array (some _)) =>
        match items with
        | some item =>
          (layered context none item).map fun l => { l with layers := .list :: l.layers }
        | none => .ok ⟨[], .expr .bareList⟩
      | .ok leaf => .ok ⟨[], leaf.core (outer.getD s)⟩

end Schema

end SchemaCompiler
