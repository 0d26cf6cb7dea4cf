import SchemaCompiler.Annotation
import SchemaCompiler.Import.Layer
import SchemaCompiler.Import.Scope
import SchemaCompiler.Model.Finalize
import SchemaCompiler.Signature

/-! Importing schemas into a model. A type is registered when something first refers to it, and its
properties are imported later from a queue, so that types may refer to themselves and to each
other. -/

namespace SchemaCompiler

/-- What stays the same throughout an import. -/
structure ImportSettings where
  /-- Where references lead. -/
  definitions : Table String Schema := []
  annotations : Annotations := []
  /-- When objects are taken for well-known types, if at all. -/
  inference : Option InferenceConfig := none
  /-- Whether the metadata of a resource has the well-known type for it. -/
  canonicalMetadata : Bool := false

/-- A registered type whose properties are still to come from a schema. -/
structure Pending where
  id : TypeId
  schema : Schema

structure Importer where
  model : Model := {}
  pending : List Pending := []
  /-- What each definition was found to be, by its key. -/
  resolved : Table String TypeExpr := []

namespace Importer

def enqueue (i : Importer) (id : TypeId) (schema : Schema) : Importer :=
  { i with pending := i.pending ++ [⟨id, schema⟩] }

def remember (i : Importer) (key : String) (e : TypeExpr) : Importer :=
  { i with resolved := Table.insert key e i.resolved }

/-- Registers a type with a body of its own. A name that its group has already keeps its type. -/
def registerRoot (i : Importer) (group : GroupKey) (name : String) (kind : TypeKind)
    (schema : Schema) : TypeId × Importer :=
  match i.model.find? group (group.qualify name) with
  | some id => (id, i)
  | none =>
    let (id, model) := i.model.registerNamed group name kind schema.description
    (id, { i with model }.enqueue id schema)

/-- The type of the object declared under a property: a well-known type that it looks like, or a new
one. -/
def importObject (c : ImportSettings) (i : Importer) (parent : TypeId) (property : String)
    (typeName : Option String) (body : Schema) : TypeExpr × Importer :=
  match c.inference.bind (Signature.infer · property body) with
  | some q => (.ref q, i)
  | none =>
    let (id, model) := i.model.registerAnonymous parent property typeName body.description
    (.type id, { i with model }.enqueue id body)

/-- The type of a property, where `follow` leads on from a reference. -/
def importWith (c : ImportSettings) (follow : Importer → String → Except Error TypeExpr × Importer)
    (i : Importer) (parent : TypeId) (property : String) (typeName : Option String)
    (schema : Schema) : Except Error TypeExpr × Importer :=
  let context := i.model.fullNameOf parent ++ "." ++ property
  match schema.layered context none with
  | .error e => (.error e, i)
  | .ok ⟨layers, core⟩ =>
    match core with
    | .expr e => (.ok (wrap layers e), i)
    | .object body =>
      let (e, i) := importObject c i parent property typeName body
      (.ok (wrap layers e), i)
    | .reference path =>
      let (r, i) := follow i path
      (r.map (wrap layers), i)

/-- The type that a definition describes. A definition that is no record becomes a synonym, which is
registered before its target is known so that it may mention itself. -/
def importDefinition (c : ImportSettings)
    (follow : Importer → String → Except Error TypeExpr × Importer) (i : Importer) (key : String)
    (q : QualifiedName) (definition : Schema) : Except Error TypeExpr × Importer :=
  let group := GroupKey.of q
  if definition.isRecord then
    let (id, i) := i.registerRoot group q.name (definitionKind q definition) definition
    (.ok (.type id), i.remember key (.type id))
  else
    let (id, model) := i.model.registerNamed group q.name (.synonym (.primitive .any))
      definition.description
    let i := { i with model }.remember key (.type id)
    if definition.isUnconstrained then (.ok (.type id), i)
    else
      match importWith c follow i id "item" none definition with
      | (.ok target, i) =>
        (.ok (.type id), { i with model := i.model.setKind id (.synonym target) })
      | (.error e, i) => (.error e, i)

/-- The type that a reference leads to, where `follow` leads on from the references of its definition.
What it was found to be is remembered. -/
def importReference (c : ImportSettings)
    (follow : Importer → String → Except Error TypeExpr × Importer) (i : Importer)
    (reference : String) : Except Error TypeExpr × Importer :=
  let key := QualifiedName.identifier reference
  match Table.get? key i.resolved with
  | some e => (.ok e, i)
  | none =>
    match QualifiedName.parse? key with
    | none => (.error (.unknownGroup (QualifiedName.identifier key)), i)
    | some q =>
      match wellKnown? q, Table.get? key c.definitions with
      | some w, _ => (.ok (.wellKnown w), i.remember key (.wellKnown w))
      | none, none => (.ok (.ref q), i.remember key (.ref q))
      | none, some definition => importDefinition c follow i key q definition

/-- Follows references from definition to definition. Each definition passed on the way is remembered,
so `depth` need not exceed their number by more than one. -/
def followRef (c : ImportSettings) : Nat → Importer → String → Except Error TypeExpr × Importer
  | 0, i, reference => (.error (.unknownGroup (QualifiedName.identifier reference)), i)
  | depth + 1, i, reference => importReference c (followRef c depth) i reference

/-- The type that a reference or a key of a definition stands for. -/
def importRef (i : Importer) (c : ImportSettings) (reference : String) :
    Except Error TypeExpr × Importer :=
  followRef c (c.definitions.length + 1) i reference

/-- The type of a property declared in `parent`. -/
def importProperty (c : ImportSettings) (i : Importer) (parent : TypeId) (property : String)
    (typeName : Option String) (schema : Schema) : Except Error TypeExpr × Importer :=
  importWith c (importRef · c) i parent property typeName schema

/-- The keys under which overrides for a type may be given, the most specific first. -/
def overrideKeys (m : Model) (id : TypeId) : List String :=
  match m.types[id]? with
  | some t =>
    [t.group.qualify t.fullName, t.fullName] ++ (if t.name != t.fullName then [t.name] else [])
  | none => []

def isResource (m : Model) (id : TypeId) : Bool :=
  ((m.types[id]?).bind TypeEntry.apiResource?).isSome

/-- Properties that being a resource implies. -/
def impliedProperties : List String := ["apiVersion", "kind"]

def objectMeta : QualifiedName := ⟨"ObjectMeta", "meta", some "v1"⟩

/-- What is known about a type when the import of its body begins. -/
structure BodyContext where
  id : TypeId
  resource : Bool
  overrides : TypeOverrides
  required : List String

/-- A property with its declared schema and the patch in effect for it. -/
def patchedField (b : BodyContext) (name : String) (declared : Schema) (patch : PropertyPatch)
    (type : TypeExpr) : Property :=
  { name, type
    required := b.required.contains name
    description := declared.description.or (patch.schema.getD declared).description
    given := patch.fieldName }

/-- One property of a type's body, none if it is implied or deleted. -/
def importField (c : ImportSettings) (b : BodyContext) (i : Importer) (name : String)
    (declared : Schema) : Except Error (Option Property) × Importer :=
  if b.resource && impliedProperties.contains name then (.ok none, i)
  else
    let go (patch : PropertyPatch) : Except Error (Option Property) × Importer :=
      let field := patchedField b name declared patch
      if c.canonicalMetadata && b.resource && name == "metadata" then
        (.ok (some (field (.ref objectMeta))), i)
      else
        let (r, i) := importProperty c i b.id name patch.typeName (patch.schema.getD declared)
        (r.map fun type => some (field type), i)
    match Table.get? name b.overrides with
    | some .delete => (.ok none, i)
    | some (.patch p) => go p
    | none => go {}

def importFields (c : ImportSettings) (b : BodyContext) :
    Importer → List (String × Schema) → Except Error (List Property) × Importer
  | i, [] => (.ok [], i)
  | i, (name, declared) :: rest =>
    match importField c b i name declared with
    | (.error e, i) => (.error e, i)
    | (.ok p, i) =>
      match importFields c b i rest with
      | (.error e, i) => (.error e, i)
      | (.ok ps, i) => (.ok (p.toList ++ ps), i)

def bodyContext (c : ImportSettings) (m : Model) (p : Pending) : BodyContext :=
  { id := p.id
    resource := isResource m p.id
    overrides := (Annotations.forType c.annotations (overrideKeys m p.id)).getD []
    required := p.schema.required }

/-- Gives a type the properties of its body. -/
def importBody (c : ImportSettings) (i : Importer) (p : Pending) : Except Error Unit × Importer :=
  match importFields c (bodyContext c i.model p) i p.schema.properties with
  | (.error e, i) => (.error e, i)
  | (.ok ps, i) => (.ok (), { i with model := i.model.setProperties p.id ps })

/-- Imports at most `limit` bodies from the queue. A body that fails is gone from it. -/
def run (c : ImportSettings) : Nat → Importer → Except Error Unit × Importer
  | limit, i =>
    match i.pending with
    | [] => (.ok (), i)
    | p :: rest =>
      match limit with
      | 0 => (.error .endless, i)
      | limit + 1 =>
        match importBody c { i with pending := rest } p with
        | (.ok (), i) => run c limit i
        | (.error e, i) => (.error e, i)

/-- More bodies than any import that ends has. -/
def stepLimit : Nat := Nat.pow 2 62

/-- Imports bodies until the queue is empty. -/
def drain (i : Importer) (c : ImportSettings) : Except Error Unit × Importer :=
  run c stepLimit i

/-- Drains the queue and finalizes the model. -/
def finish (i : Importer) (c : ImportSettings) : Except Error Model :=
  match i.drain c with
  | (.ok (), i) => .ok i.model.finalize
  | (.error e, _) => .error e

end Importer

end SchemaCompiler
