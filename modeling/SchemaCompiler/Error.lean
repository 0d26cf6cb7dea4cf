import SchemaCompiler.Text.Quoted

/-! What can go wrong, by cause, and the wording of each cause. -/

namespace SchemaCompiler

/-- Why a file or directory could not be read or written. -/
inductive FileError where
  | missing
  | notADirectory
  | isADirectory
  | exists
  | nameTooLong
  | notText
  | other (message : String)
deriving DecidableEq, Repr

def FileError.message : FileError → String
  | missing => "No such file or directory (os error 2)"
  | notADirectory => "Not a directory (os error 20)"
  | isADirectory => "Is a directory (os error 21)"
  | .exists => "File exists (os error 17)"
  | nameTooLong => "File name too long (os error 36)"
  | notText => "stream did not contain valid UTF-8"
  | other message => message

/-- Why a schema has no shape. -/
inductive ShapeFault where
  | unknownType (type : String)
  | unmarked
deriving DecidableEq, Repr

def ShapeFault.message : ShapeFault → String
  | unknownType type => "unknown type '" ++ type ++ "'"
  | unmarked => "schema has no type, $ref, or recognized marker"

/-- What keeps the text of a file or document from being used. -/
inductive ReadFault where
  | documentNotJson
  | documentNotYaml
  | document (path : String) (cause : FileError)
  | manifest (path : String) (cause : FileError)
  | annotations (path : String) (cause : FileError)
  | annotationsNotYaml (path : String)
  | config (path : String) (cause : FileError)
  | configNotYaml (path : String)
  | walk (directory : String) (cause : FileError)
deriving DecidableEq, Repr

def unreadable : String := "the text does not have the expected form"

def yamlMessage : String := "YAML error: " ++ unreadable

def ReadFault.message : ReadFault → String
  | documentNotJson => "Failed to parse OpenAPI JSON: " ++ unreadable
  | documentNotYaml => "Failed to parse OpenAPI YAML: " ++ unreadable
  | document path cause => "Failed to read OpenAPI file " ++ path ++ ": " ++ cause.message
  | manifest path cause => "Failed to read " ++ path ++ ": " ++ cause.message
  | annotations path cause => "Failed to read annotations file " ++ path ++ ": " ++ cause.message
  | annotationsNotYaml path => "Failed to parse annotations file " ++ path ++ ": " ++ yamlMessage
  | config path cause => "Failed to read config file " ++ Text.quoted path ++ ": " ++ cause.message
  | configNotYaml path =>
    "Failed to parse config YAML from " ++ Text.quoted path ++ ": " ++ yamlMessage
  | walk directory cause => "Failed to walk " ++ directory ++ ": " ++ cause.message

/-- What keeps a module from being written. -/
inductive OutputFault where
  | unfinished (group : String)
  | reservedModule (group : String) (moduleName : String)
  | directory (cause : FileError)
  | file (path : String) (cause : FileError)
deriving DecidableEq, Repr

def OutputFault.message : OutputFault → String
  | unfinished group => "Group " ++ group ++ " has not been finalized"
  | reservedModule group moduleName =>
    "Group " ++ group ++ " maps to reserved module name '" ++ moduleName ++ "'"
  | directory cause => "Failed to create output directory: " ++ cause.message
  | file path cause => "Failed to write " ++ path ++ ": " ++ cause.message

inductive Error where
  | unknownGroup (id : String)
  | unknownType (requested : String)
  | unsupportedShape (context : String) (fault : ShapeFault)
  | unsupportedFormat (format : String)
  | unreadYaml
  | unread (fault : ReadFault)
  | unwritten (fault : OutputFault)
  /-- An import ran past its limit of steps. -/
  | endless
deriving DecidableEq, Repr

namespace Error

def message : Error → String
  | unknownGroup id => "Unknown API group for schema identifier: " ++ id
  | unknownType requested => "Requested type not found: " ++ requested
  | unsupportedShape context fault =>
    "Unsupported schema shape in " ++ context ++ ": " ++ fault.message
  | unsupportedFormat format => "Unsupported format '" ++ format ++ "' for type 'string'"
  | unreadYaml => yamlMessage
  | unread fault => "Parse error: " ++ fault.message
  | unwritten fault => "Generation error: " ++ fault.message
  | endless => "Import did not end"

/-- The cause below an error that has one of its own. -/
def source : Error → Option String
  | unreadYaml => some unreadable
  | _ => none

end Error

end SchemaCompiler
