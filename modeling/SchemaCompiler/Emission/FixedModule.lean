import SchemaCompiler.Emission.GroupModule

/-! The modules that every output has: the base module, which does not depend on the model, and the
index of all modules. -/

namespace SchemaCompiler

namespace Emission

def baseLines : List String := [
  "//! Well-known aliases and resource traits shared by every generated module",
  "//!",
  generatedBy,
  "",
  "use serde::\x7bDeserialize, Serialize\x7d;",
  "",
  "/// RFC 3339 timestamp",
  "pub type Time = String;",
  "",
  "/// Base64-encoded bytes",
  "pub type Base64 = String;",
  "",
  "/// Internationalized host name",
  "pub type IDNHostname = String;",
  "",
  "/// Fixed-point resource quantity such as `500m` or `1Gi`",
  "#[derive(Clone, Debug, Default, PartialEq, Eq, Serialize, Deserialize)]",
  "#[serde(transparent)]",
  "pub struct Quantity(pub String);",
  "",
  "/// Value that is either an integer or a string, such as a port",
  "#[derive(Clone, Debug, PartialEq, Eq, Serialize, Deserialize)]",
  "#[serde(untagged)]",
  "pub enum IntOrString \x7b",
  "    Int(i64),",
  "    String(String),",
  "\x7d",
  "",
  "impl Default for IntOrString \x7b",
  "    fn default() -> Self \x7b",
  "        IntOrString::Int(0)",
  "    \x7d",
  "\x7d",
  "",
  "/// A top-level Kubernetes kind",
  "pub trait Resource \x7b",
  "    const API_VERSION: &'static str;",
  "    const KIND: &'static str;",
  "    const PLURAL: Option<&'static str>;",
  "\x7d",
  "",
  "/// A kind served inside a namespace",
  "pub trait NamespacedResource: Resource \x7b\x7d",
  "",
  "/// A kind served at cluster scope",
  "pub trait ClusterResource: Resource \x7b\x7d"]

def baseText : String := unlines baseLines

def indexLines (modules : List String) : List String :=
  ["//! Kubernetes types generated by kube-typegen. Do not edit.", "", "pub mod base;"] ++
    modules.map (fun name => "pub mod " ++ name ++ ";") ++ [""]

def indexText (modules : List String) : String := unlines (indexLines modules)

end Emission

end SchemaCompiler
