import SchemaCompiler.Import.Importer
import SchemaCompiler.Schema.Encoding
import SchemaCompiler.Version

/-! Definitions of custom resources, and their compilation into a model. Each is compiled from its most
stable version that is served and has a schema. -/

namespace SchemaCompiler

structure ResourceNames where
  kind : String
  plural : String
  singular : Option String := none
  listKind : Option String := none
deriving DecidableEq, Repr

structure ResourceVersion where
  name : String
  served : Bool := true
  storage : Bool := false
  schema : Option Schema := none
deriving Repr

structure CustomResource where
  apiVersion : String := ""
  kind : String
  metadataName : String := ""
  group : String
  names : ResourceNames
  scope : String
  versions : List ResourceVersion := []
deriving Repr

namespace ResourceNames

def decode (d : Dialect) (room : Nat) (v : Value) : Option ResourceNames := do
  let fields ← v.record? d ["kind", "plural", "singular", "listKind"] room
  let kind ← fields.require "kind" Value.text?
  let plural ← fields.require "plural" Value.text?
  let singular ← fields.option "singular" Value.text?
  let listKind ← fields.option "listKind" Value.text?
  some { kind, plural, singular, listKind }

end ResourceNames

namespace ResourceVersion

def decodeValidation (d : Dialect) (room : Nat) (v : Value) : Option Schema := do
  let fields ← v.record? d ["openAPIV3Schema"] room
  fields.require "openAPIV3Schema" (Schema.decode d (room - 1))

def decode (d : Dialect) (room : Nat) (v : Value) : Option ResourceVersion := do
  let fields ← v.record? d ["name", "served", "storage", "schema"] room
  let name ← fields.require "name" Value.text?
  let served ← fields.optional "served" true Value.bool?
  let storage ← fields.optional "storage" false Value.bool?
  let schema ← fields.option "schema" (decodeValidation d (room - 1))
  some { name, served, storage, schema }

end ResourceVersion

namespace CustomResource

def decodeMetadata (d : Dialect) (room : Nat) (v : Value) : Option String := do
  let fields ← v.record? d ["name"] room
  fields.optional "name" "" Value.text?

def decode (d : Dialect) (room : Nat) (v : Value) : Option CustomResource := do
  let fields ← v.record? d ["apiVersion", "kind", "metadata", "spec"] room
  let apiVersion ← fields.optional "apiVersion" "" Value.text?
  let kind ← fields.require "kind" Value.text?
  let metadataName ← fields.optional "metadata" "" (decodeMetadata d (room - 1))
  let spec ← fields.require "spec" (Value.record? d ["group", "names", "scope", "versions"] (room - 1))
  let group ← spec.require "group" Value.text?
  let names ← spec.require "names" (ResourceNames.decode d (room - 2))
  let scope ← spec.require "scope" Value.text?
  let versions ← spec.optional "versions" []
    (Schema.list? d (room - 2) (ResourceVersion.decode d (room - 3)))
  some { apiVersion, kind, metadataName, group, names, scope, versions }

/-- Reads a definition off a tree with settled scalars. -/
def ofValue? (v : Value) : Option CustomResource :=
  decode .loose (v.depth + 1) v

def optionValue (s : Option String) : Value := (s.map Value.text).getD .null

def namesValue (n : ResourceNames) : Value :=
  .map (Value.field "kind" (.text n.kind) ++ Value.field "plural" (.text n.plural) ++
    Value.field "singular" (optionValue n.singular) ++
    Value.field "listKind" (optionValue n.listKind))

def versionValue (v : ResourceVersion) : Value :=
  let schema := match v.schema with
    | some s => .map (Value.field "openAPIV3Schema" s.toValue)
    | none => .null
  .map (Value.field "name" (.text v.name) ++ Value.field "served" (.bool v.served) ++
    Value.field "storage" (.bool v.storage) ++ Value.field "schema" schema)

def toValue (r : CustomResource) : Value :=
  .map (Value.field "apiVersion" (.text r.apiVersion) ++ Value.field "kind" (.text r.kind) ++
    Value.field "metadata" (.map (Value.field "name" (.text r.metadataName))) ++
    Value.field "spec" (.map (Value.field "group" (.text r.group) ++
      Value.field "names" (namesValue r.names) ++ Value.field "scope" (.text r.scope) ++
      Value.field "versions" (.seq (r.versions.map versionValue)))))

def isNamespaced (r : CustomResource) : Bool := r.scope == "Namespaced"

def isEligible (v : ResourceVersion) : Bool := v.served && v.schema.isSome

/-- The most stable of the versions; of versions with the same name the last. -/
def mostStable? (versions : List ResourceVersion) : Option ResourceVersion :=
  versions.foldl (fun best v => match best with
    | some b => if Version.order b.name v.name == .gt then some b else some v
    | none => some v) none

/-- The most stable version that is served and has a schema. -/
def preferredVersion? (r : CustomResource) : Option ResourceVersion :=
  mostStable? (r.versions.filter isEligible)

def storageVersion? (r : CustomResource) : Option ResourceVersion :=
  r.versions.find? (·.storage)

def ownKind : String := "CustomResourceDefinition"

def listKinds : List String := ["List", "CustomResourceDefinitionList"]

def kindOf (v : Value) : String :=
  match v.get? "kind" with
  | some (.text kind) => kind
  | _ => ""

section Collection

variable {ε : Type} (read : Value → Except ε CustomResource)

mutual

/-- The definitions in a tree: the tree itself, or those among the items of a list. Anything else
holds none. -/
def collect : Value → Except ε (List CustomResource)
  | v@(.map entries) =>
    let kind := kindOf v
    if kind == ownKind then (read v).map ([·])
    else if listKinds.contains kind then collectUnder entries
    else .ok []
  | _ => .ok []

/-- The definitions under the key of the items. -/
def collectUnder : List (Value × Value) → Except ε (List CustomResource)
  | [] => .ok []
  | (k, v) :: rest =>
    match k, v with
    | .text "items", .seq items => collectAll items
    | .text "items", _ => .ok []
    | _, _ => collectUnder rest

def collectAll : List Value → Except ε (List CustomResource)
  | [] => .ok []
  | v :: vs => do
    let found ← collect v
    let more ← collectAll vs
    pure (found ++ more)

end

/-- The definitions in documents, up to the first thing that cannot be read, be it a document or a
definition. -/
def ofDocuments (documents : List (Except ε Value)) : Except ε (List CustomResource) := do
  let found ← documents.mapM fun document => document >>= collect read
  pure found.flatten

end Collection

def orUnread {α : Type} (a : Option α) : Except Error α :=
  a.elim (.error .unreadYaml) .ok

/-- The definitions in a text of any number of documents. -/
def ofText (text : String) : Except Error (List CustomResource) :=
  ofDocuments (fun v => orUnread (ofValue? v)) ((Yaml.settledDocuments text).map orUnread)

/-- Resources are compiled in the order of their groups and kinds. -/
def order (a b : CustomResource) : Ordering :=
  (compare a.group b.group).then (compare a.names.kind b.names.kind)

def register (i : Importer) (r : CustomResource) : Importer :=
  match r.preferredVersion? with
  | none => i
  | some v =>
    match v.schema with
    | none => i
    | some schema =>
      let info : ApiResource :=
        { apiVersion := r.group ++ "/" ++ v.name, kind := r.names.kind, namespaced := r.isNamespaced,
          plural := some r.names.plural }
      (i.registerRoot ⟨r.group, none⟩ r.names.kind (.apiResource info) schema).2

def settings (annotations : Annotations) (config : Config) : ImportSettings :=
  { annotations, inference := some config.inference, canonicalMetadata := true }

def compile (resources : List CustomResource) (annotations : Annotations) (config : Config) :
    Except Error Model :=
  let sorted := resources.mergeSort fun a b => order a b != .gt
  (sorted.foldl register {}).finish (settings annotations config)

end CustomResource

end SchemaCompiler
