/-! Qualified names of schema definitions. Definitions are published under dotted identifiers; a
table of known beginnings tells which API group an identifier belongs to, and the rest of it gives
version and name. A few identifiers that are laid out otherwise are listed one by one. -/

namespace SchemaCompiler

structure QualifiedName where
  name : String
  group : String
  version : Option String
deriving DecidableEq, Repr

namespace QualifiedName

def groupTable : List (String × String) := [
  ("io.k8s.api.admissionregistration", "admissionregistration"),
  ("io.k8s.api.apiserverinternal", "apiserverinternal"),
  ("io.k8s.api.apps", "apps"),
  ("io.k8s.api.authentication", "authentication"),
  ("io.k8s.api.authorization", "authorization"),
  ("io.k8s.api.autoscaling", "autoscaling"),
  ("io.k8s.api.batch", "batch"),
  ("io.k8s.api.certificates", "certificates"),
  ("io.k8s.api.coordination", "coordination"),
  ("io.k8s.api.core", "core"),
  ("io.k8s.api.discovery", "discovery"),
  ("io.k8s.api.events", "events"),
  ("io.k8s.api.extensions", "extensions"),
  ("io.k8s.api.flowcontrol", "flowcontrol"),
  ("io.k8s.api.networking", "networking"),
  ("io.k8s.api.node", "node"),
  ("io.k8s.api.policy", "policy"),
  ("io.k8s.api.rbac", "rbac"),
  ("io.k8s.api.resource", "resource"),
  ("io.k8s.api.scheduling", "scheduling"),
  ("io.k8s.api.storage", "storage"),
  ("io.k8s.api.storagemigration", "storagemigration"),
  ("io.k8s.apimachinery.pkg.apis.meta", "meta"),
  ("io.k8s.apiextensions-apiserver.pkg.apis.apiextensions", "apiextensions"),
  ("io.k8s.kube-aggregator.pkg.apis.apiregistration", "apiregistration"),
  ("io.k8s.metrics.pkg.apis.metrics", "metrics")]

/-- Identifiers with a layout of their own, each with its name and group; they have no version. -/
def specialTable : List (String × String × String) := [
  ("io.k8s.apimachinery.pkg.api.resource.Quantity", "Quantity", "core"),
  ("io.k8s.apimachinery.pkg.runtime.RawExtension", "RawExtension", "runtime"),
  ("io.k8s.apimachinery.pkg.util.intstr.IntOrString", "IntOrString", "util"),
  ("io.k8s.apimachinery.pkg.version.Info", "Info", "version")]

def referencePaths : List String := ["#/definitions/", "#/components/schemas/"]

def afterStart? (start text : String) : Option String :=
  (start.toList.isPrefixOf? text.toList).map String.ofList

/-- A reference without the path in front of the identifier, which is removed once. -/
def identifier (reference : String) : String :=
  (referencePaths.findSome? (afterStart? · reference)).getD reference

/-- Splits at the first dot; both sides must be non-empty. -/
def versionAndName? (text : String) : Option (String × String) :=
  let version := text.toList.takeWhile (· != '.')
  match text.toList.dropWhile (· != '.') with
  | [] => none
  | _ :: name =>
    if version.isEmpty || name.isEmpty then none
    else some (String.ofList version, String.ofList name)

def special? (id : String) : Option QualifiedName :=
  (specialTable.find? (·.1 == id)).map fun e => ⟨e.2.1, e.2.2, none⟩

/-- The first entry of the table that `id` continues after a dot decides. -/
def tabled? (id : String) : List (String × String) → Option QualifiedName
  | [] => none
  | (start, group) :: rest =>
    match afterStart? (start ++ ".") id with
    | some text => (versionAndName? text).map fun (version, name) => ⟨name, group, some version⟩
    | none => tabled? id rest

/-- Reads a dotted identifier or a reference to one. -/
def parse? (reference : String) : Option QualifiedName :=
  let id := identifier reference
  (special? id).or (tabled? id groupTable)

def isSpecial (q : QualifiedName) : Bool :=
  q.version.isNone && specialTable.any fun e => e.2.1 == q.name && e.2.2 == q.group

def display (q : QualifiedName) : String :=
  match q.version with
  | some version => q.group ++ "." ++ version ++ "." ++ q.name
  | none => q.group ++ "." ++ q.name

end QualifiedName

end SchemaCompiler
