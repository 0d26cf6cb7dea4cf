import SchemaCompiler.Schema.Basic
import SchemaCompiler.Error

/-! The shapes that a schema can have. The type decides if there is one; without it a reference, a
single wrapped schema and the markers are tried in turn. -/

namespace SchemaCompiler

inductive StringFormat where
  | plain
  | byte
  | dateTime
  | intOrString
  | idnHostname
deriving DecidableEq, Repr

inductive Shape where
  | object (properties : List (String × Schema))
  | map (value : Option Schema)
  | integer
  | boolean
  | number (float : Bool)
  | string (format : StringFormat)
  | array (items : Option Schema)
  | reference (path : String)
  | preserveUnknown
  | intOrString
deriving Repr

namespace Schema

/-- Formats of strings that change nothing about how the string is typed. -/
def plainFormats : List String := [
  "", "date", "duration", "uri", "url", "email", "hostname", "ip", "ipv4", "ipv6", "cidr",
  "mac", "uuid", "uuid3", "uuid4", "uuid5", "password", "regex", "int32", "int64"]

def stringFormat (format : String) : Except Error StringFormat :=
  if format == "byte" then .ok .byte
  else if format == "date-time" then .ok .dateTime
  else if format == "int-or-string" then .ok .intOrString
  else if format == "idn-hostname" then .ok .idnHostname
  else if plainFormats.contains format then .ok .plain
  else .error (.unsupportedFormat format)

/-- The value schema of a map, unless it admits everything. -/
def valueSchema : Option (Additional Schema) → Option Schema
  | some (.schema value) => if value.isUnconstrained then none else some value
  | _ => none

/-- The item schema of an array, unless it admits everything. -/
def itemSchema : Option Schema → Option Schema
  | some items => if items.isUnconstrained then none else some items
  | none => none

def typedShape (s : Schema) (context type : String) : Except Error Shape :=
  if type == "object" then
    if !s.properties.isEmpty then .ok (.object s.properties)
    else .ok (.map (valueSchema s.additional))
  else if type == "integer" then .ok .integer
  else if type == "boolean" then .ok .boolean
  else if type == "number" then
    .ok (.number (s.format == some "double" || s.format == some "float"))
  else if type == "string" then (stringFormat (s.format.getD "")).map .string
  else if type == "array" then .ok (.array (itemSchema s.items))
  else .error (.unsupportedShape context (.unknownType type))

def markedShape (s : Schema) (context : String) : Except Error Shape :=
  if s.intOrString == some true then .ok .intOrString
  else if s.preserveUnknown == some true then .ok .preserveUnknown
  else if !s.properties.isEmpty then .ok (.object s.properties)
  else .error (.unsupportedShape context .unmarked)

/-- The shape of a schema; `context` names the place of the schema in messages. -/
def shape (context : String) : Schema → Except Error Shape
  | s@⟨type, _, _, _, _, _, _, reference, allOf, _, _, _, _⟩ =>
    match type, reference with
    | some t, _ => typedShape s context t
    | none, some path => .ok (.reference path)
    | none, none =>
      match allOf with
      | [single] => shape context single
      | _ => markedShape s context

end Schema

end SchemaCompiler
