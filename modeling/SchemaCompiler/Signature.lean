import SchemaCompiler.QualifiedName
import SchemaCompiler.Config
import SchemaCompiler.Schema.Basic
import SchemaCompiler.Text.Basic

/-! Signatures of well-known types. Custom resources spell such types out where they could refer to
them; an object whose property names fit a signature is taken for the type it describes. -/

namespace SchemaCompiler

structure Signature where
  name : String
  group : String := "core"
  version : String := "v1"
  /-- Properties that must all be there. -/
  keys : List String
  /-- Every property of the type. -/
  fields : List String
  /-- If there are any, the property that declares the object must contain one of them. -/
  hints : List String := []
deriving DecidableEq, Repr

namespace Signature

def qualifiedName (s : Signature) : QualifiedName := ⟨s.name, s.group, some s.version⟩

/-- The first signature that fits counts. Those with hints come first, since their keys say little,
and a hint that contains another one comes before it. -/
def all : List Signature := [
  { name := "ConfigMapKeySelector"
    keys := ["key", "name"]
    fields := ["key", "name", "optional"]
    hints := ["configmapkeyref"] },
  { name := "SecretKeySelector"
    keys := ["key", "name"]
    fields := ["key", "name", "optional"]
    hints := ["secretkeyref"] },
  { name := "SecretReference"
    keys := ["name"]
    fields := ["name", "namespace"]
    hints := ["secretref"] },
  { name := "LocalObjectReference"
    keys := ["name"]
    fields := ["name"]
    hints := ["imagepullsecrets"] },
  { name := "PersistentVolumeClaim"
    keys := ["spec"]
    fields := ["apiVersion", "kind", "metadata", "spec", "status"]
    hints := ["volumeclaimtemplates"] },
  { name := "PersistentVolumeClaimTemplate"
    keys := ["spec"]
    fields := ["metadata", "spec"]
    hints := ["volumeclaimtemplate"] },
  { name := "ObjectReference"
    keys := ["apiVersion", "kind", "name"]
    fields := ["apiVersion", "fieldPath", "kind", "name", "namespace", "resourceVersion", "uid"] },
  { name := "TypedLocalObjectReference"
    keys := ["apiGroup", "kind", "name"]
    fields := ["apiGroup", "kind", "name"] },
  { name := "PersistentVolumeClaimSpec"
    keys := ["accessModes", "resources"]
    fields := ["accessModes", "dataSource", "dataSourceRef", "resources", "selector",
      "storageClassName", "volumeAttributesClassName", "volumeMode", "volumeName"] },
  { name := "Toleration"
    keys := ["key", "operator", "effect"]
    fields := ["effect", "key", "operator", "tolerationSeconds", "value"] },
  { name := "Affinity"
    keys := ["nodeAffinity", "podAntiAffinity"]
    fields := ["nodeAffinity", "podAffinity", "podAntiAffinity"] },
  { name := "ResourceRequirements"
    keys := ["limits", "requests"]
    fields := ["claims", "limits", "requests"] },
  { name := "LabelSelector"
    group := "meta"
    keys := ["matchExpressions", "matchLabels"]
    fields := ["matchExpressions", "matchLabels"] },
  { name := "TopologySpreadConstraint"
    keys := ["maxSkew", "topologyKey", "whenUnsatisfiable"]
    fields := ["labelSelector", "matchLabelKeys", "maxSkew", "minDomains", "nodeAffinityPolicy",
      "nodeTaintsPolicy", "topologyKey", "whenUnsatisfiable"] },
  { name := "Container"
    keys := ["name", "image", "imagePullPolicy"]
    fields := ["args", "command", "env", "envFrom", "image", "imagePullPolicy", "lifecycle",
      "livenessProbe", "name", "ports", "readinessProbe", "resizePolicy", "resources",
      "restartPolicy", "securityContext", "startupProbe", "stdin", "stdinOnce",
      "terminationMessagePath", "terminationMessagePolicy", "tty", "volumeDevices",
      "volumeMounts", "workingDir"] },
  { name := "Probe"
    keys := ["failureThreshold", "initialDelaySeconds", "periodSeconds"]
    fields := ["exec", "failureThreshold", "grpc", "httpGet", "initialDelaySeconds",
      "periodSeconds", "successThreshold", "tcpSocket", "terminationGracePeriodSeconds",
      "timeoutSeconds"] },
  { name := "Volume"
    keys := ["name", "configMap", "secret", "emptyDir"]
    fields := ["awsElasticBlockStore", "azureDisk", "azureFile", "cephfs", "cinder", "configMap",
      "csi", "downwardAPI", "emptyDir", "ephemeral", "fc", "flexVolume", "flocker",
      "gcePersistentDisk", "gitRepo", "glusterfs", "hostPath", "image", "iscsi", "name", "nfs",
      "persistentVolumeClaim", "photonPersistentDisk", "portworxVolume", "projected", "quobyte",
      "rbd", "scaleIO", "secret", "storageos", "vsphereVolume"] },
  { name := "VolumeMount"
    keys := ["mountPath", "name"]
    fields := ["mountPath", "mountPropagation", "name", "readOnly", "recursiveReadOnly",
      "subPath", "subPathExpr"] },
  { name := "EnvVar"
    keys := ["name", "value", "valueFrom"]
    fields := ["name", "value", "valueFrom"] },
  { name := "SecurityContext"
    keys := ["allowPrivilegeEscalation", "capabilities", "privileged"]
    fields := ["allowPrivilegeEscalation", "appArmorProfile", "capabilities", "privileged",
      "procMount", "readOnlyRootFilesystem", "runAsGroup", "runAsNonRoot", "runAsUser",
      "seLinuxOptions", "seccompProfile", "windowsOptions"] },
  { name := "PodSecurityContext"
    keys := ["fsGroup", "supplementalGroups"]
    fields := ["appArmorProfile", "fsGroup", "fsGroupChangePolicy", "runAsGroup", "runAsNonRoot",
      "runAsUser", "seLinuxChangePolicy", "seLinuxOptions", "seccompProfile",
      "supplementalGroups", "supplementalGroupsPolicy", "sysctls", "windowsOptions"] }]

def isHinted (s : Signature) (property : String) : Bool :=
  s.hints.isEmpty ||
    s.hints.any fun h => Text.occursIn h.toList (property.toList.map Char.toLower)

/-- How many of the names are no property of the type. -/
def strangers (s : Signature) (names : List String) : Nat :=
  names.countP (!s.fields.contains ·)

def fits (s : Signature) (maxUnknown : Nat) (property : String) (names : List String) : Bool :=
  s.isHinted property && s.keys.all names.contains && s.strangers names ≤ maxUnknown

/-- Whether an object with these properties, declared under `property`, may be taken for the type. -/
def applies (s : Signature) (config : InferenceConfig) (property : String) (names : List String) :
    Bool :=
  config.allows s.name && s.fits config.maxUnknownFields property names

/-- What the first signature of the table that applies to an object says that it is. -/
def inferFrom (table : List Signature) (config : InferenceConfig) (property : String)
    (schema : Schema) : Option QualifiedName :=
  let names := schema.properties.map Prod.fst
  if !config.enabled || names.isEmpty then none
  else (table.find? (·.applies config property names)).map qualifiedName

/-- The well-known type that an object declared under `property` stands for. -/
def infer (config : InferenceConfig) (property : String) (schema : Schema) : Option QualifiedName :=
  inferFrom all config property schema

end Signature

end SchemaCompiler
