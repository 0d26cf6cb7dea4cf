/-! The arguments of the command line. Options may stand in any order among the sources, their short
forms may be run together, and a value may be attached or follow. -/

namespace SchemaCompiler

structure DocumentRun where
  schema : String
  /-- The types that are asked for; none stands for all. -/
  types : List String
  annotations : Option String
  config : Option String
  output : String
deriving DecidableEq, Repr

structure ResourceRun where
  sources : List String
  annotations : Option String
  apiModule : Option String
  config : Option String
  inference : Bool
  output : String
deriving DecidableEq, Repr

inductive Task where
  | document (run : DocumentRun)
  | resources (run : ResourceRun)
deriving DecidableEq, Repr

inductive Request where
  | perform (verbose : Bool) (task : Task)
  | help
  | version
deriving DecidableEq, Repr

namespace Arguments

inductive Switch where
  | verbose
  | noInference
  | help
  | version
deriving DecidableEq, Repr

inductive Setting where
  | schema
  | type
  | annotations
  | apiModule
  | config
  | output
deriving DecidableEq, Repr

namespace Setting

/-- Whether the value is a path, which must not be empty. -/
def isPath : Setting → Bool
  | type | apiModule => false
  | _ => true

def mayRepeat : Setting → Bool
  | type => true
  | _ => false

end Setting

inductive OptionName where
  | switch (s : Switch)
  | setting (s : Setting)
deriving DecidableEq, Repr

/-- The options of a command, each with its long name and perhaps a letter. -/
abbrev Options := List (String × Option Char × OptionName)

def commonOptions : Options := [
  ("verbose", some 'v', .switch .verbose),
  ("help", some 'h', .switch .help)]

def programOptions : Options := ("version", some 'V', .switch .version) :: commonOptions

def documentOptions : Options := [
  ("schema", some 's', .setting .schema),
  ("type", some 't', .setting .type),
  ("annotations", some 'a', .setting .annotations),
  ("config", some 'c', .setting .config),
  ("output", some 'o', .setting .output)] ++ commonOptions

def resourceOptions : Options := [
  ("annotations", some 'a', .setting .annotations),
  ("api-module", none, .setting .apiModule),
  ("config", some 'c', .setting .config),
  ("no-inference", none, .switch .noInference),
  ("output", some 'o', .setting .output)] ++ commonOptions

def byName? (options : Options) (name : List Char) : Option OptionName :=
  (options.find? (·.1.toList == name)).map (·.2.2)

def byLetter? (options : Options) (letter : Char) : Option OptionName :=
  (options.find? (·.2.1 == some letter)).map (·.2.2)

/-- What has been read of the arguments of a command. -/
structure Reading where
  switches : List Switch := []
  settings : List (Setting × String) := []
  sources : List String := []

namespace Reading

def value? (r : Reading) (s : Setting) : Option String := r.settings.lookup s

/-- The values of a setting that may be repeated, in order. -/
def values (r : Reading) (s : Setting) : List String :=
  ((r.settings.filter (·.1 == s)).map Prod.snd).reverse

end Reading

/-- Why reading ends before the arguments do. -/
inductive Stop where
  | usage
  | answer (r : Request)
deriving DecidableEq, Repr

def turnOn (r : Reading) : Switch → Except Stop Reading
  | .help => .error (.answer .help)
  | .version => .error (.answer .version)
  | s =>
    if r.switches.contains s then .error .usage else .ok { r with switches := s :: r.switches }

def give (r : Reading) (s : Setting) (value : String) : Except Stop Reading :=
  if (s.isPath && value.isEmpty) || (!s.mayRepeat && (r.value? s).isSome) then .error .usage
  else .ok { r with settings := (s, value) :: r.settings }

def addSource (takesSources : Bool) (r : Reading) (source : String) : Except Stop Reading :=
  if !takesSources || source.isEmpty then .error .usage
  else .ok { r with sources := r.sources ++ [source] }

/-- An argument as it looks before its option is known. -/
inductive Argument where
  | long (name : List Char) (value : Option (List Char))
  | short (letters : List Char)
  | endOfOptions
  | source (text : String)
deriving DecidableEq, Repr

def Argument.of (argument : String) : Argument :=
  match argument.toList with
  | ['-', '-'] => .endOfOptions
  | '-' :: '-' :: body =>
    match body.dropWhile (· != '=') with
    | _ :: value => .long (body.takeWhile (· != '=')) (some value)
    | [] => .long body none
  | '-' :: c :: letters => .short (c :: letters)
  | _ => .source argument

/-- What a run of letters leaves open: a setting whose value is the next argument, or nothing. -/
abbrev Open := Option Setting

def readLetters (options : Options) : Reading → List Char → Except Stop (Reading × Open)
  | r, [] => .ok (r, none)
  | r, c :: rest =>
    match byLetter? options c, rest with
    | none, _ => .error .usage
    | some (.switch s), _ => do readLetters options (← turnOn r s) rest
    | some (.setting s), [] => .ok (r, some s)
    | some (.setting s), '=' :: value => do .ok (← give r s (String.ofList value), none)
    | some (.setting s), value => do .ok (← give r s (String.ofList value), none)

def readLong (options : Options) (r : Reading) (name : List Char) (value : Option (List Char)) :
    Except Stop (Reading × Open) :=
  match byName? options name, value with
  | none, _ => .error .usage
  | some (.switch s), none => do .ok (← turnOn r s, none)
  | some (.switch _), some _ => .error .usage
  | some (.setting s), none => .ok (r, some s)
  | some (.setting s), some value => do .ok (← give r s (String.ofList value), none)

/-- Reads the arguments of a command; `awaits` is the setting that the next one is the value of. -/
def readAll (options : Options) (takesSources : Bool) :
    Open → Reading → List String → Except Stop Reading
  | none, r, [] => .ok r
  | some _, _, [] => .error .usage
  | awaits, r, argument :: rest =>
    match awaits, Argument.of argument with
    | some s, .source text => do readAll options takesSources none (← give r s text) rest
    | some _, _ => .error .usage
    | none, .source text => do
      readAll options takesSources none (← addSource takesSources r text) rest
    | none, .endOfOptions => rest.foldlM (addSource takesSources) r
    | none, .short letters => do
      let (r, opened) ← readLetters options r letters
      readAll options takesSources opened r rest
    | none, .long name value => do
      let (r, opened) ← readLong options r name value
      readAll options takesSources opened r rest

def defaultOutput : String := "./models"

def documentTask? (r : Reading) : Option Task :=
  (r.value? .schema).map fun schema => .document {
    schema, types := r.values .type, annotations := r.value? .annotations, config := r.value? .config,
    output := (r.value? .output).getD defaultOutput }

def resourceTask? (r : Reading) : Option Task :=
  if r.sources.isEmpty then none
  else some (.resources {
    sources := r.sources, annotations := r.value? .annotations, apiModule := r.value? .apiModule,
    config := r.value? .config, inference := !r.switches.contains .noInference,
    output := (r.value? .output).getD defaultOutput })

def requestOf (program command : Reading) (task : Option Task) : Except Stop Request :=
  match task with
  | some task => .ok (.perform ((program.switches ++ command.switches).contains .verbose) task)
  | none => .error .usage

/-- Help is about the program or one of its commands. -/
def isHelpTopic : List String → Bool
  | [] => true
  | [command] => ["api", "crd", "help"].contains command
  | _ => false

/-- Reads the name of the command, after any options of the program, and the command's arguments. -/
def readProgram : Reading → List String → Except Stop Request
  | _, [] => .error .usage
  | program, argument :: rest =>
    match Argument.of argument with
    | .source "api" => do
      let r ← readAll documentOptions false none {} rest
      requestOf program r (documentTask? r)
    | .source "crd" => do
      let r ← readAll resourceOptions true none {} rest
      requestOf program r (resourceTask? r)
    | .source "help" => if isHelpTopic rest then .ok .help else .error .usage
    | .source _ => .error .usage
    | .endOfOptions => .error .usage
    | .short letters => do readProgram (← readLetters programOptions program letters).1 rest
    | .long name value => do readProgram (← readLong programOptions program name value).1 rest

/-- The request that the arguments make, none if they make no sense. -/
def request? (arguments : List String) : Option Request :=
  match readProgram {} arguments with
  | .ok r => some r
  | .error (.answer r) => some r
  | .error .usage => none

end Arguments

end SchemaCompiler
