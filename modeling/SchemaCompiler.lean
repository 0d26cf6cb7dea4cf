import SchemaCompiler.Text.Quoted
import SchemaCompiler.Text.Basic
import SchemaCompiler.Table
import SchemaCompiler.Naming.Field
import SchemaCompiler.Naming.Type
import SchemaCompiler.Naming.Module
import SchemaCompiler.Version
import SchemaCompiler.QualifiedName
import SchemaCompiler.Json.Reader
import SchemaCompiler.Yaml.Document
import SchemaCompiler.Schema.Shape
import SchemaCompiler.Schema.Encoding
import SchemaCompiler.Schema.Decoding
import SchemaCompiler.Signature
import SchemaCompiler.Annotation
import SchemaCompiler.ShortName
import SchemaCompiler.Model.Basic
import SchemaCompiler.Model.Reference
import SchemaCompiler.Model.Finalize
import SchemaCompiler.Import.Importer
import SchemaCompiler.OpenApi
import SchemaCompiler.CustomResource
import SchemaCompiler.Emission.FixedModule
import SchemaCompiler.Files.Tree
import SchemaCompiler.Files.Loading
import SchemaCompiler.Files.Writing
import SchemaCompiler.CommandLine.Session
import SchemaCompiler.Main
import SchemaCompiler.Proofs.Table
import SchemaCompiler.Proofs.QualifiedName
import SchemaCompiler.Proofs.Version
import SchemaCompiler.Proofs.Preference
import SchemaCompiler.Proofs.Model.Arena
import SchemaCompiler.Proofs.Model.Registration
import SchemaCompiler.Proofs.Model.Resolve
import SchemaCompiler.Proofs.Model.Merge
import SchemaCompiler.Proofs.Model.MergeLoop
import SchemaCompiler.Proofs.Model.Rename
import SchemaCompiler.Proofs.Model.Finalization
import SchemaCompiler.Proofs.Model.Change
import SchemaCompiler.Proofs.Model.Label
import SchemaCompiler.Proofs.Model.LeavesFirst
import SchemaCompiler.Proofs.Model.LeastMerge
import SchemaCompiler.Proofs.Model.UniqueName
import SchemaCompiler.Proofs.Model.ChosenName
import SchemaCompiler.Proofs.Model.NamingRule
import SchemaCompiler.Proofs.Import.Layering
import SchemaCompiler.Proofs.Import.Progress
import SchemaCompiler.Proofs.Import.Queue
import SchemaCompiler.Proofs.Import.Alike
import SchemaCompiler.Proofs.Import.Wrapper
import SchemaCompiler.Proofs.Import.Parts
import SchemaCompiler.Proofs.Import.Depth
import SchemaCompiler.Proofs.Import.Ending
import SchemaCompiler.Proofs.Import.Denotation
import SchemaCompiler.Proofs.Import.Coherence
import SchemaCompiler.Proofs.Import.Growth
import SchemaCompiler.Proofs.Import.Filling
import SchemaCompiler.Proofs.Import.Meeting
import SchemaCompiler.Proofs.Import.Origin
import SchemaCompiler.Proofs.Import.Completeness
import SchemaCompiler.Proofs.Model.Equals
import SchemaCompiler.Proofs.Model.Integrity
import SchemaCompiler.Proofs.Model.Correspondence
import SchemaCompiler.Proofs.Model.Independence
import SchemaCompiler.Proofs.Model.ClassOrder
import SchemaCompiler.Proofs.Model.Renumbering
import SchemaCompiler.Proofs.Model.Unfinalized
import SchemaCompiler.Proofs.Model.Ties
import SchemaCompiler.Proofs.Model.Resemblance
import SchemaCompiler.Proofs.Import.Counterpart
import SchemaCompiler.Proofs.Import.Restriction
import SchemaCompiler.Proofs.Import.Merged
import SchemaCompiler.Proofs.Import.Replay
import SchemaCompiler.Proofs.Import.Part
import SchemaCompiler.Proofs.Import.Inference
import SchemaCompiler.Proofs.Import.Abridgement
import SchemaCompiler.Proofs.Import.Keys
import SchemaCompiler.Proofs.Import.Edit
import SchemaCompiler.Proofs.Import.Changes
import SchemaCompiler.Proofs.Import.Context
import SchemaCompiler.Proofs.Import.Waypoints
import SchemaCompiler.Proofs.Import.Tracking
import SchemaCompiler.Proofs.Import.Failure
import SchemaCompiler.Proofs.Import.Retention
import SchemaCompiler.Proofs.Import.Aftermath
import SchemaCompiler.Proofs.Import.Numbering
import SchemaCompiler.Proofs.Import.ObjectName
import SchemaCompiler.Proofs.Import.TextRecord
import SchemaCompiler.Proofs.ShortName
import SchemaCompiler.Proofs.Subset
import SchemaCompiler.Proofs.Inference
import SchemaCompiler.Proofs.RequestOrder
import SchemaCompiler.Proofs.ManifestOrder
import SchemaCompiler.Proofs.Model.View
import SchemaCompiler.Proofs.Model.Frame
import SchemaCompiler.Proofs.Model.Linking
import SchemaCompiler.Proofs.Model.Turn
import SchemaCompiler.Proofs.Model.Usage
import SchemaCompiler.Proofs.Emission.Reference
import SchemaCompiler.Proofs.Emission.FieldName
import SchemaCompiler.Proofs.Emission.Containment
import SchemaCompiler.Proofs.Emission.SynonymCycle
import SchemaCompiler.Proofs.Emission.DistinctField
import SchemaCompiler.Proofs.Emission.Identifier
import SchemaCompiler.Proofs.Emission.Capture
import SchemaCompiler.Proofs.Emission.Boxing
import SchemaCompiler.Proofs.Emission.ImportedName
import SchemaCompiler.Proofs.Emission.ByName
import SchemaCompiler.Proofs.Text.Line
import SchemaCompiler.Proofs.Emission.Description
import SchemaCompiler.Proofs.Text.Literal
import SchemaCompiler.Proofs.Emission.WireFormat
import SchemaCompiler.Proofs.Naming.Module
import SchemaCompiler.Proofs.Naming.Letter
import SchemaCompiler.Proofs.Naming.Field
import SchemaCompiler.Proofs.Naming.Type
import SchemaCompiler.Proofs.Naming.TypeShape
import SchemaCompiler.Proofs.Naming.Identifier
import SchemaCompiler.Proofs.Files.Tree
import SchemaCompiler.Proofs.Files.Writing
import SchemaCompiler.Proofs.Value.Record
import SchemaCompiler.Proofs.Schema.RoundTrip
import SchemaCompiler.Proofs.Annotation
import SchemaCompiler.Proofs.Files.Loading
import SchemaCompiler.Proofs.RoundTrip
import SchemaCompiler.Proofs.IdentifierLayout
import SchemaCompiler.Proofs.PreferredVersion
import SchemaCompiler.Proofs.Signature
import SchemaCompiler.Proofs.Gathering
import SchemaCompiler.Proofs.ManifestContents
import SchemaCompiler.Proofs.Naming.FieldShape
