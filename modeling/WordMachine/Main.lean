import WordMachine.Tool.Command

/-!
# The program

The program runs the command of its command line at the terminal, on the files of the disk.
-/

namespace WordMachine

/-- The terminal. -/
instance : Console IO where
  write text := do (← IO.getStdout).putStr text
  readLine := do
    (← IO.getStdout).flush
    let line ← (← IO.getStdin).getLine
    return if line.isEmpty then none
      else some ((Text.lines line.toList).headD [])

/-- The number of an error of the operating system, which may have come negated. -/
def FileError.number (code : UInt32) : Nat := min code.toNat (0 - code).toNat

/-- The reason that has a number, in the words of the system if it is no other. -/
def FileError.ofNumber (code : UInt32) (details : String) : FileError :=
  match FileError.number code with
  | 20 => .notDirectory
  | 21 => .isDirectory
  | 36 => .nameTooLong
  | n => .other (details ++ " (os error " ++ toString n ++ ")")

/-- The reason for an error of the operating system. -/
def FileError.ofSystem : IO.Error → FileError
  | .noFileOrDirectory _ _ _ => .missing
  | .inappropriateType _ code details => .ofNumber code details
  | .invalidArgument _ code details => .ofNumber code details
  | .permissionDenied _ code details => .ofNumber code details
  | e => .other (toString e)

/-- What an action on files gives, or why it does not. -/
def FileError.catching {α : Type} (action : IO α) : IO (Except FileError α) := do
  return (← action.toBaseIO).mapError FileError.ofSystem

/-- The disk. -/
instance : FileStore IO where
  read path := FileError.catching do return (← IO.FS.readBinFile path).toList
  write path bytes := FileError.catching (IO.FS.writeBinFile path ⟨bytes.toArray⟩)
  list path := FileError.catching do
    let entries ← (System.mkFilePath [path]).readDir
    entries.toList.mapM fun entry => do
      let kind := match (← entry.path.metadata).type with
        | .file => EntryKind.file
        | .dir => EntryKind.directory
        | _ => EntryKind.other
      return (entry.fileName, kind)

end WordMachine

/-- Runs a command and ends with its exit code. -/
def main (args : List String) : IO UInt32 := do
  let report ← (WordMachine.Command.report args : IO WordMachine.Report)
  (← IO.getStdout).flush
  (← IO.getStderr).putStr report.errors
  return UInt32.ofNat report.code
