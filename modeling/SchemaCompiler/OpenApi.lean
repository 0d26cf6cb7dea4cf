import SchemaCompiler.Import.Importer
import SchemaCompiler.Json.Reader
import SchemaCompiler.Schema.Encoding
import SchemaCompiler.ShortName

/-! API documents, which define schemas under dotted identifiers, and their compilation into a model. -/

namespace SchemaCompiler

structure DocumentInfo where
  title : String
  version : String
deriving DecidableEq, Repr

structure OpenApiDocument where
  swagger : Option String := none
  openapi : Option String := none
  info : Option DocumentInfo := none
  definitions : Table String Schema := []
  /-- The schemas among the components, if the document has components. -/
  components : Option (Table String Schema) := none
deriving Repr

namespace DocumentInfo

def ofValue? (d : Dialect) (room : Nat) (v : Value) : Option DocumentInfo := do
  let fields ← v.record? d ["title", "version"] room
  let title ← fields.require "title" Value.text?
  let version ← fields.require "version" Value.text?
  some { title, version }

def toValue (i : DocumentInfo) : Value :=
  .map (Value.field "title" (.text i.title) ++ Value.field "version" (.text i.version))

end DocumentInfo

namespace OpenApiDocument

/-- The schemas that count: those of the components only if there are no definitions. -/
def schemas (doc : OpenApiDocument) : Table String Schema :=
  match doc.components with
  | some schemas => if doc.definitions.isEmpty then schemas else doc.definitions
  | none => doc.definitions

def schemaTable? (d : Dialect) (room : Nat) (v : Value) : Option (Table String Schema) :=
  Schema.table? d room (Schema.decode d (room - 1)) v

def components? (d : Dialect) (room : Nat) (v : Value) : Option (Table String Schema) := do
  let fields ← v.record? d ["schemas"] room
  fields.optional "schemas" [] (schemaTable? d (room - 1))

def decode (d : Dialect) (room : Nat) (v : Value) : Option OpenApiDocument := do
  let fields ← v.record? d ["swagger", "openapi", "info", "definitions", "components"] room
  let swagger ← fields.option "swagger" Value.text?
  let openapi ← fields.option "openapi" Value.text?
  let info ← fields.option "info" (DocumentInfo.ofValue? d (room - 1))
  let definitions ← fields.optional "definitions" [] (schemaTable? d (room - 1))
  let components ← fields.option "components" (components? d (room - 1))
  some { swagger, openapi, info, definitions, components }

def schemasValue (schemas : Table String Schema) : Value :=
  .map (Schema.propertyEntries schemas)

def toValue (doc : OpenApiDocument) : Value :=
  .map (
    Value.fieldIfSome "swagger" Value.text doc.swagger ++
    Value.fieldIfSome "openapi" Value.text doc.openapi ++
    Value.fieldIfSome "info" DocumentInfo.toValue doc.info ++
    Value.fieldIfAny "definitions" schemasValue doc.definitions ++
    Value.fieldIfSome "components" (fun s => .map (Value.field "schemas" (schemasValue s)))
      doc.components)

/-- How deep the containers of a JSON text may nest. -/
def jsonNesting : Nat := 127

def ofJson (text : String) : Except Error OpenApiDocument :=
  match (Json.read? text).bind (decode .exact jsonNesting) with
  | some doc => .ok doc
  | none => .error (.unread .documentNotJson)

def ofYaml (text : String) : Except Error OpenApiDocument :=
  match (Yaml.document? text).bind (decode .written Yaml.nesting) with
  | some doc => .ok doc
  | none => .error (.unread .documentNotYaml)

def shortNames (doc : OpenApiDocument) : Except Error ShortNames :=
  ShortNames.ofKeys (Table.keys doc.schemas)

def settings (doc : OpenApiDocument) (annotations : Annotations) : ImportSettings :=
  { definitions := doc.schemas, annotations }

/-- Imports the definitions under the given keys and everything they lead to. -/
def importKeys (c : ImportSettings) : Importer → List String → Except Error Model
  | i, [] => i.finish c
  | i, key :: rest =>
    match i.importRef c key with
    | (.ok _, i) => importKeys c i rest
    | (.error e, _) => .error e

/-- Compiles every definition. -/
def compile (doc : OpenApiDocument) (annotations : Annotations) : Except Error Model :=
  importKeys (doc.settings annotations) {} (Table.keys doc.schemas)

/-- Imports the types that are asked for, up to the first that is not found. -/
def importTypes (c : ImportSettings) (names : ShortNames) :
    Importer → List String → Except Error Model
  | i, [] => i.finish c
  | i, requested :: rest =>
    match names.resolve requested with
    | .error e => .error e
    | .ok key =>
      match i.importRef c key with
      | (.ok _, i) => importTypes c names i rest
      | (.error e, _) => .error e

/-- Compiles the types that are asked for, by short name or by key. -/
def compileTypes (doc : OpenApiDocument) (annotations : Annotations) (requested : List String) :
    Except Error Model := do
  importTypes (doc.settings annotations) (← doc.shortNames) {} requested

end OpenApiDocument

end SchemaCompiler
