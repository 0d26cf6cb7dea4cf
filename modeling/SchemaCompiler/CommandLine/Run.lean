import SchemaCompiler.CommandLine.Arguments
import SchemaCompiler.Files.Loading
import SchemaCompiler.Files.Writing

/-! Runs of the program: what is read, compiled and written, and what is said about it on the way. -/

namespace SchemaCompiler

/-- Where a run takes place. -/
class Host (m : Type → Type) extends FileStore m where
  /-- Writes to the output. -/
  say (text : String) : m Unit
  /-- Writes to the output for warnings. -/
  warn (text : String) : m Unit

/-- Why a run failed: what it was doing, and the causes from the nearest to the deepest. -/
structure Failure where
  reason : String
  causes : List String
deriving DecidableEq, Repr

namespace Failure

/-- A cause of several lines stays indented. -/
def indentedBy (first rest : List Char) (cause : String) : List Char :=
  first ++ cause.toList.flatMap fun c => if c = '\n' then '\n' :: rest else [c]

def blanks (n : Nat) : List Char := List.replicate n ' '

/-- A cause with its number, right-aligned in five columns. -/
def numbered (cause : String) (n : Nat) : List Char :=
  let digits := Nat.toDigits 10 n
  indentedBy (blanks (5 - digits.length) ++ digits ++ [':', ' ']) (blanks 7) cause

/-- The causes as lines, numbered if there is more than one. -/
def causeTexts : List String → List (List Char)
  | [cause] => [indentedBy (blanks 4) (blanks 4) cause]
  | causes => causes.zipIdx.map fun (cause, n) => numbered cause n

def report (f : Failure) : String :=
  "Error: " ++ f.reason ++
    (if f.causes.isEmpty then "" else "\n\nCaused by:") ++
    String.ofList ((causeTexts f.causes).flatMap fun text => '\n' :: text) ++ "\n"

end Failure

variable {m : Type → Type} [Monad m] [Host m]

def sayLine (line : String) : ExceptT Failure m Unit :=
  ExceptT.lift (Host.say (line ++ "\n"))

/-- Does one part of a run, and says which part it was if it fails. -/
def during {α : Type} (part : String) (work : ExceptT Error m α) : ExceptT Failure m α :=
  work.adapt fun e => { reason := part, causes := e.message :: e.source.toList }

def loadConfig : Option String → ExceptT Failure m Config
  | some path => during ("Failed to load config " ++ path) (Config.load path)
  | none => pure {}

def loadAnnotations : Option String → ExceptT Failure m Annotations
  | some path => during ("Failed to load annotations " ++ path) (Annotations.load path)
  | none => pure []

def groupLine (g : GroupKey × FinalizedGroup) : String :=
  "  • " ++ g.1.display ++ " (" ++ toString g.2.types.length ++ " types)"

def writeModules (verbose : Bool) (model : Model) (apiModule output : String) :
    ExceptT Failure m Unit := do
  let groups := model.finalizedGroups
  let total := (groups.flatMap fun g => g.2.types).length
  sayLine ("✓ Compiled " ++ toString total ++ " types in " ++ toString groups.length ++ " groups")
  if verbose then groups.forM fun g => sayLine (groupLine g)
  sayLine "→ Writing modules..."
  let written ← during "Failed to generate modules" (model.write apiModule output)
  sayLine "\n✓ Generation complete!"
  sayLine "\nGenerated files:"
  written.forM fun path => sayLine ("  📄 " ++ path)

def typesLine (types : List String) : String :=
  "  Types: " ++ if types.isEmpty then "all" else ", ".intercalate types

/-- Compiles the types that are asked for from a document in a file. -/
def OpenApiDocument.compileFile (path : String) (types : List String) (annotations : Annotations) :
    ExceptT Error m Model := do
  let doc ← load path
  MonadExcept.ofExcept
    (if types.isEmpty then doc.compile annotations else doc.compileTypes annotations types)

def runDocument (verbose : Bool) (r : DocumentRun) : ExceptT Failure m Unit := do
  sayLine ("→ Generating models from: " ++ r.schema)
  let config ← loadConfig r.config
  let annotations ← loadAnnotations r.annotations
  if verbose then
    sayLine (typesLine r.types)
    sayLine ("  Output: " ++ r.output)
  sayLine "→ Parsing schema..."
  let model ← during "Failed to compile OpenAPI definitions"
    (OpenApiDocument.compileFile r.schema r.types annotations)
  writeModules verbose model config.apiModule r.output

/-- The configuration with what the arguments say instead. -/
def ResourceRun.settle (r : ResourceRun) (config : Config) : Config :=
  { apiModule := r.apiModule.getD config.apiModule
    inference := { config.inference with enabled := config.inference.enabled && r.inference } }

def requireSource (source : String) : ExceptT Failure m Unit := do
  if !(← (FileStore.isPresent source : m Bool)) then
    throw { reason := "CRD source does not exist: " ++ source, causes := [] }

def sayFound (count : Nat) : ExceptT Failure m Unit :=
  if count = 0 then ExceptT.lift (Host.warn "⚠ No CustomResourceDefinitions found\n")
  else sayLine ("✓ Loaded " ++ toString count ++ " CRDs")

def inferenceLine (inference : Bool) : String :=
  "  Inference: " ++ if inference then "enabled" else "disabled"

def runResources (verbose : Bool) (r : ResourceRun) : ExceptT Failure m Unit := do
  let config := r.settle (← loadConfig r.config)
  sayLine ("→ Generating models from " ++ toString r.sources.length ++ " CRD source(s)")
  r.sources.forM requireSource
  let annotations ← loadAnnotations r.annotations
  if verbose then
    sayLine ("  API module: " ++ config.apiModule)
    sayLine (inferenceLine config.inference.enabled)
    sayLine ("  Output: " ++ r.output)
  sayLine "→ Loading CRDs..."
  let resources ← during "Failed to load CRD manifests" (CustomResource.loadAll r.sources)
  sayFound resources.length
  let model ← during "Failed to compile CRD schemas"
    (MonadExcept.ofExcept (CustomResource.compile resources annotations config))
  writeModules verbose model config.apiModule r.output

def perform (verbose : Bool) (task : Task) : ExceptT Failure m Unit := do
  if verbose then sayLine "→ Verbose mode enabled"
  match task with
  | .document r => runDocument verbose r
  | .resources r => runResources verbose r

def versionText : String := "kube-typegen 0.3.0\n"

def usageText : String :=
  "Usage: kube-typegen [-v] api -s <SCHEMA> [-t <TYPE>]... [-a <FILE>] [-c <FILE>] [-o <DIRECTORY>]\n" ++
  "       kube-typegen [-v] crd <SOURCE>... [-a <PATH>] [--api-module <PATH>] [-c <FILE>]\n" ++
  "                    [--no-inference] [-o <DIRECTORY>]\n"

/-- Runs the program and gives its exit status. -/
def runProgram (arguments : List String) : m UInt32 := do
  match Arguments.request? arguments with
  | none =>
    Host.warn usageText
    pure 2
  | some .help =>
    Host.say usageText
    pure 0
  | some .version =>
    Host.say versionText
    pure 0
  | some (.perform verbose task) =>
    match ← (perform verbose task).run with
    | .ok () => pure 0
    | .error failure =>
      Host.warn failure.report
      pure 1

end SchemaCompiler
