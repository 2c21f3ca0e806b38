import WordMachine.Session.Execution
import WordMachine.Tool.Sources

/-!
# Test suites

A suite is a directory of units, each of which is a program that is to halt. A source file is a
unit, and so is a directory with source files in it, which make up one program in the order of
their names. Every unit is run, in the order of the names, and the suite succeeds if all of them
pass.

## Main statements

* `Suite.sort_perm`: sorting loses no unit and makes none up
-/

namespace WordMachine

/-- A program of a suite. -/
structure SuiteUnit where
  name : String
  /-- The source files that make it up. -/
  sources : List String
  deriving DecidableEq, Repr, Inhabited

namespace Suite

variable {m : Type → Type} [Monad m]

/-- Whether a path leads to a source file, by its name. -/
def isSource (path : String) : Bool := Path.extension? path == some Sources.sourceExtension

/-- The unit that a path with some sources stands for. -/
def unitOf (path : String) (sources : List String) : SuiteUnit :=
  { name := (Path.stem? path).getD path, sources := sources }

/-- The unit in a directory, unless there is no source in it. -/
def directoryUnit? [FileStore m] (path : String) : ExceptT ToolError m (Option SuiteUnit) := do
  match ← (FileStore.list path : m _) with
  | .error e => throw (.unitDirectory path e)
  | .ok entries =>
    let sources := (entries.map fun entry => Path.join path entry.1).filter isSource
    if sources.isEmpty then return none
    return some (unitOf path (sources.mergeSort fun a b => a ≤ b))

/-- The unit that an entry of a suite's directory stands for, if it is one. -/
def entryUnit? [FileStore m] (path : String) : EntryKind → ExceptT ToolError m (Option SuiteUnit)
  | .file => return if isSource path then some (unitOf path [path]) else none
  | .directory => directoryUnit? path
  | .other => return none

/-- The units of a suite, in the order of its directory. -/
def unitsIn [FileStore m] (directory : String) : ExceptT ToolError m (List SuiteUnit) := do
  match ← (FileStore.list directory : m _) with
  | .error e => throw (.suiteDirectory directory e)
  | .ok entries =>
    let units ← entries.mapM fun (name, kind) => entryUnit? (Path.join directory name) kind
    return units.filterMap id

/-- Units in the order of their names. -/
def sort (units : List SuiteUnit) : List SuiteUnit := units.mergeSort fun a b => a.name ≤ b.name

/-- The summary of a unit's execution, or what kept it from being executed: a heading, and why. -/
def execute [Console m] [FileStore m] (limit : Option Nat) (u : SuiteUnit) :
    m (Except (String × ToolError) Summary) := do
  match ← (Sources.assembleFiles false u.sources).run with
  | .error e => return .error ("FAIL: ASSEMBLY ERROR", e)
  | .ok program =>
    match Machine.start program.words with
    | .error e => return .error ("FAIL: LOAD ERROR", .image e)
    | .ok machine =>
      let (summary, _) ← Execution.execute { limit := limit } machine
      return .ok summary

/-- A message with its lines after the first set in. -/
def setIn (message : String) : String :=
  String.ofList (message.toList.flatMap fun c => if c = '\n' then ['\n', '\t'] else [c])

/-- The verdict on a unit. -/
def verdict : Except (String × ToolError) Summary → String
  | .error (heading, e) => Console.red heading ++ ":\n\t" ++ setIn e.message
  | .ok summary =>
    if summary.timedOut then
      Console.red "FAIL: DETERMINISTIC TIMEOUT" ++ " after " ++ toString summary.instructions
        ++ " instructions"
    else if summary.state = .halted then
      Console.green "PASS" ++ " " ++ Console.padLeft 7 (toString summary.instructions)
        ++ " instructions"
    else Console.red ("FAIL: " ++ summary.state.text).toUpper

/-- Runs a unit, with its number, and tells whether it passed. Names take up as many bytes. -/
def runUnit [Console m] [FileStore m] (limit : Option Nat) (nameBytes number : Nat)
    (u : SuiteUnit) : m Bool := do
  let outcome ← execute limit u
  let gap := String.ofList (List.replicate (nameBytes - u.name.utf8ByteSize) ' ')
  Console.writeLine ("Unit " ++ Console.padLeft 2 (toString number) ++ ": " ++ u.name ++ " " ++ gap
    ++ verdict outcome)
  return (outcome.toOption.map Summary.isSuccess).getD false

/-- Runs units and tells whether all of them passed. -/
def runUnits [Console m] [FileStore m] (name : String) (limit : Option Nat)
    (units : List SuiteUnit) : m Bool := do
  let nameBytes := (units.map fun u => u.name.utf8ByteSize).foldl max 0
  let total := units.length
  Console.writeLine ("Running suite: '" ++ name ++ "' (" ++ toString total ++ " units)")
  Console.writeLine (Console.rule (nameBytes + 45))
  let verdicts ← units.zipIdx.mapM fun (u, i) => runUnit limit nameBytes (i + 1) u
  let passes := verdicts.count true
  Console.writeLine (Console.rule (nameBytes + 45))
  Console.writeLine ("Suite Result: "
    ++ (if passes = total then Console.green "SUCCESS" else Console.red "FAILED") ++ ", "
    ++ toString passes ++ "/" ++ toString total ++ " passes")
  return passes = total

/-- Runs a suite, or a single unit of it, and tells whether all that was run passed. -/
def run [Console m] [FileStore m] (name root : String) (only : Option String)
    (limit : Option Nat) : ExceptT ToolError m Bool := do
  let units ← unitsIn (Path.join root name)
  match only with
  | none => (runUnits name limit (sort units) : m Bool)
  | some only =>
    match units.find? fun u => u.name == only with
    | none => throw (.unknownUnit only)
    | some u => (runUnits name limit [u] : m Bool)

theorem sort_perm (units : List SuiteUnit) : (sort units).Perm units :=
  List.mergeSort_perm units _

end Suite

end WordMachine
