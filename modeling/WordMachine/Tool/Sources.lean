import WordMachine.Assembly.Program
import WordMachine.Session.Console
import WordMachine.Tool.Error

/-!
# Source files

Several source files make up one program: they are read in the order in which they are named, and
each ends its last line before the next one begins.

## Main statements

* `Sources.getLast?_terminated`: a text that was ended ends with a line feed
-/

namespace WordMachine

namespace Sources

open Assembly

/-- The extension of a source file. -/
def sourceExtension : String := "ucisc"

/-- The extension of an image. -/
def imageExtension : String := "bin"

/-- A text with its last line ended. -/
def terminated (t : List Char) : List Char :=
  if t.getLast? = some '\n' then t else t ++ ['\n']

variable {m : Type → Type} [Monad m]

/-- The text of some source files, one after another. -/
def readAll [FileStore m] : List String → ExceptT ToolError m (List Char)
  | [] => pure []
  | path :: rest => do
    match ← (FileStore.readText path : m _) with
    | .error e => throw (.sourceFile path e)
    | .ok text => return terminated text.toList ++ (← readAll rest)

/-- The program of a source, its listing shown if that is asked for. -/
def assembleShowing [Console m] (listing : Bool) (source : List Char) :
    ExceptT ToolError m Program := do
  let (answer, entries) := assemble source
  match answer with
  | .error failures => throw (.source failures)
  | .ok program =>
    if listing then entries.forM fun entry => Console.writeLine entry.text
    return program

/-- The program that some source files make up, its listing shown if that is asked for. -/
def assembleFiles [Console m] [FileStore m] (listing : Bool) (paths : List String) :
    ExceptT ToolError m Program := do
  assembleShowing listing (← readAll paths)

/-- Where the image of a source file goes unless it is told to: into a file of its name with another
extension, in the current directory. -/
def outputPath (source extension : String) : String :=
  Path.withExtension ((Path.stem? source).getD source) extension

theorem getLast?_terminated (t : List Char) : (terminated t).getLast? = some '\n' := by
  unfold terminated
  split
  · assumption
  · simp

end Sources

end WordMachine
