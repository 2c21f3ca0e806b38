import WordMachine.Assembly.Error
import WordMachine.Files.Store
import WordMachine.Machine.Memory

/-!
# What tools give up for

A tool that cannot do what it was asked for tells why in one message. Where one thing failed because
of another, the message has both, the cause last.
-/

namespace WordMachine

/-- Why a tool gives up. -/
inductive ToolError where
  | sourceFile (path : String) (cause : FileError)
  | source (failures : List Assembly.Failure)
  | image (cause : LoadError)
  | imageFile (path : String) (cause : FileError)
  | outputFile (path : String) (cause : FileError)
  | unknownExample (name : String)
  | suiteDirectory (path : String) (cause : FileError)
  | unitDirectory (path : String) (cause : FileError)
  | unknownUnit (name : String)
  deriving Repr

/-- The wording of an error. -/
def ToolError.message : ToolError → String
  | sourceFile path cause => "could not read source file '" ++ path ++ "': " ++ cause.message
  | source failures => Assembly.report failures
  | image cause => cause.message
  | imageFile path cause => "could not read binary '" ++ path ++ "': " ++ cause.message
  | outputFile path cause => "could not write binary '" ++ path ++ "': " ++ cause.message
  | unknownExample name => "no example named '" ++ name ++ "'"
  | suiteDirectory path cause =>
    "could not read suite directory '" ++ path ++ "': " ++ cause.message
  | unitDirectory path cause => "could not read unit directory '" ++ path ++ "': " ++ cause.message
  | unknownUnit name => "no unit named '" ++ name ++ "' in suite"

end WordMachine
