import SchemaCompiler.Model.Basic
import SchemaCompiler.Schema.Basic

/-! What definitions say about being served: which of them are resources, and whether within
namespaces. -/

namespace SchemaCompiler

/-- Kinds that stand outside namespaces where a definition does not say so itself. -/
def clusterKinds : List String := [
  "APIService", "CertificateSigningRequest", "ClusterRole", "ClusterRoleBinding",
  "ClusterTrustBundle", "ComponentStatus", "CSIDriver", "CSINode", "CustomResourceDefinition",
  "DeviceClass", "FlowSchema", "IngressClass", "IPAddress", "MutatingAdmissionPolicy",
  "MutatingAdmissionPolicyBinding", "MutatingWebhookConfiguration", "Namespace", "Node",
  "PersistentVolume", "PriorityClass", "PriorityLevelConfiguration", "ResourceSlice",
  "RuntimeClass", "SelfSubjectAccessReview", "SelfSubjectReview", "SelfSubjectRulesReview",
  "ServiceCIDR", "StorageClass", "StorageVersion", "StorageVersionMigration",
  "SubjectAccessReview", "TokenReview", "ValidatingAdmissionPolicy",
  "ValidatingAdmissionPolicyBinding", "ValidatingWebhookConfiguration", "VolumeAttachment",
  "VolumeAttributesClass"]

/-- The kind that a list kind lists. -/
def itemKind (kind : String) : String :=
  let cs := kind.toList
  if "List".toList.isSuffixOf cs then String.ofList (cs.take (cs.length - 4)) else kind

def isNamespacedKind (kind : String) : Bool :=
  !clusterKinds.contains kind && !clusterKinds.contains (itemKind kind)

/-- A definition is a resource if it declares one kind and that is its own name. -/
def definitionKind (q : QualifiedName) (definition : Schema) : TypeKind :=
  match definition.kinds with
  | [g] =>
    if g.kind == q.name then
      .apiResource {
        apiVersion := if g.group == "" then g.version else g.group ++ "/" ++ g.version
        kind := g.kind
        namespaced := definition.namespaced.getD (isNamespacedKind g.kind)
        plural := none }
    else .resource
  | _ => .resource

/-- Definitions that every output has ready-made. -/
def wellKnown? (q : QualifiedName) : Option WellKnown :=
  if !q.isSpecial then none
  else if q.name == "Quantity" then some .quantity
  else if q.name == "IntOrString" then some .intOrString
  else none

end SchemaCompiler
