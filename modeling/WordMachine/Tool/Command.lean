import WordMachine.Session.Debugger
import WordMachine.Tool.Arguments
import WordMachine.Tool.Examples
import WordMachine.Tool.Limit
import WordMachine.Tool.Suite

/-!
# Commands

There are four commands: to assemble source files into an image, to run an image, to run source
files or an example, and to run a suite. A command ends with an exit code: 0 if all went well, 1 if
a program did not halt in time or a unit failed, and 2, with a message, if it had to give up.

## Main statements

* `Command.exitCode_eq_zero_iff`: an execution succeeds if the processor halted within the limit
-/

namespace WordMachine

/-- How a machine is run. -/
structure MachineOptions where
  limit : Option Nat := ({} : Execution).limit
  /-- Whether every instruction is shown. -/
  verbose : Bool := false
  /-- Whether the debugger asks before every step. -/
  debugger : Bool := false
  deriving DecidableEq, Repr, Inhabited

/-- A command. -/
inductive Command where
  | assemble (sources : List String) (output : Option String) (listing : Bool)
  | runImage (image : String) (options : MachineOptions)
  | runSources (sources : List String) (listing : Bool) (options : MachineOptions)
  | runExample (name : String) (listing : Bool) (options : MachineOptions)
  | runSuite (name : String) (root only : Option String) (limit : Option Nat)
  deriving DecidableEq, Repr, Inhabited

/-- What a command leaves behind: its exit code, and its message if it gave up. -/
structure Report where
  code : Nat
  errors : String := ""
  deriving DecidableEq, Repr, Inhabited

namespace Command

/-- The directory in which suites are looked for. -/
def suiteDirectory : String := "asm"

/-! ## Reading a command line -/

/-- The option for a limit of instructions. -/
def limitOption : OptionSpec := ⟨'m', "max-instructions", true⟩

/-- The option for a listing. -/
def listingOption : OptionSpec := ⟨'l', "listing", false⟩

/-- The options for the run of a machine. -/
def machineSpecs : List OptionSpec :=
  [limitOption, ⟨'v', "verbose", false⟩, ⟨'d', "debugger", false⟩]

/-- The limit that the arguments ask for. -/
def limitOf (a : Arguments) : Except UsageError (Option Nat) :=
  match a.value? limitOption.long with
  | none => .ok ({} : Execution).limit
  | some text => (Limit.read text.toList).mapError fun e => .badValue limitOption.long e.message

/-- How the arguments ask for a machine to be run. -/
def machineOptions (a : Arguments) : Except UsageError MachineOptions :=
  (limitOf a).map fun limit =>
    { limit := limit, verbose := a.has "verbose", debugger := a.has "debugger" }

/-- The command to assemble. -/
def readAssemble (texts : List String) : Except UsageError Command := do
  let a ← Arguments.read [⟨'o', "out", true⟩, listingOption] texts
  if a.plain.isEmpty then throw (.missingArgument "source file")
  return .assemble a.plain (a.value? "out") (a.has listingOption.long)

/-- The command to run an image. -/
def readRunImage (texts : List String) : Except UsageError Command := do
  let a ← Arguments.read machineSpecs texts
  match a.plain with
  | [] => throw (.missingArgument "image")
  | [image] => return .runImage image (← machineOptions a)
  | _ :: extra :: _ => throw (.extraArgument extra)

/-- The command to run source files or an example. -/
def readRun (texts : List String) : Except UsageError Command := do
  let a ← Arguments.read (⟨'e', "example", true⟩ :: listingOption :: machineSpecs) texts
  let options ← machineOptions a
  match a.value? "example" with
  | some name =>
    if Examples.names.contains name then return .runExample name (a.has listingOption.long) options
    else throw (.badValue "example" ("there is no example '" ++ name ++ "'"))
  | none =>
    if a.plain.isEmpty then throw (.missingArgument "source file")
    return .runSources a.plain (a.has listingOption.long) options

/-- The command to run a suite. -/
def readRunSuite (texts : List String) : Except UsageError Command := do
  let a ← Arguments.read [⟨'o', "only", true⟩, limitOption] texts
  let limit ← limitOf a
  match a.plain with
  | [] => throw (.missingArgument "suite")
  | [name] => return .runSuite name none (a.value? "only") limit
  | [name, root] => return .runSuite name (some root) (a.value? "only") limit
  | _ :: _ :: extra :: _ => throw (.extraArgument extra)

/-- The command of a command line. -/
def read : List String → Except UsageError Command
  | [] => .error (.missingArgument "command")
  | name :: texts =>
    match name with
    | "asm" => readAssemble texts
    | "vm" => readRunImage texts
    | "run" => readRun texts
    | "suite" => readRunSuite texts
    | _ => .error (.unknownCommand name)

/-! ## Running a command -/

variable {m : Type → Type} [Monad m] [Console m] [FileStore m]

/-- The exit code of an execution. -/
def exitCode (s : Summary) : Nat := if s.isSuccess then 0 else 1

/-- Runs a machine as the options say. -/
def runMachine (options : MachineOptions) (machine : Machine) : m Summary := do
  let talks := options.debugger || options.verbose
  let x : Execution :=
    { limit := options.limit
      reportsFaults := talks
      announces := true
      verbosity := if options.verbose then .disassembly else .silent }
  let (summary, after) ← Debugger.execute x options.verbose options.debugger machine
  if talks then Console.write after.cpu.regs.text
  return summary

/-- Runs a machine if it could be started. -/
def runStarted (options : MachineOptions) :
    Except LoadError Machine → ExceptT ToolError m Nat
  | .error e => throw (.image e)
  | .ok machine => do return exitCode (← (runMachine options machine : m Summary))

/-- Assembles source files into an image. -/
def assembleInto (sources : List String) (output : Option String) (listing : Bool) :
    ExceptT ToolError m Nat := do
  let program ← Sources.assembleFiles listing sources
  let path := output.getD (Sources.outputPath (sources.headD "") Sources.imageExtension)
  match ← (FileStore.write path (Image.bytes program.words) : m _) with
  | .error e => throw (.outputFile path e)
  | .ok _ => return 0

/-- Runs an image. -/
def runImageFile (path : String) (options : MachineOptions) : ExceptT ToolError m Nat := do
  match ← (FileStore.read path : m _) with
  | .error e => throw (.imageFile path e)
  | .ok bytes => runStarted options (Machine.startImage bytes)

/-- The exit code of a command, or what it gave up for. -/
def run : Command → ExceptT ToolError m Nat
  | assemble sources output listing => assembleInto sources output listing
  | runImage image options => runImageFile image options
  | runSources sources listing options => do
    let program ← Sources.assembleFiles listing sources
    runStarted options (Machine.start program.words)
  | runExample name listing options =>
    match Examples.source? name with
    | none => throw (.unknownExample name)
    | some source => do
      let program ← Sources.assembleShowing listing source
      runStarted options (Machine.start program.words)
  | runSuite name root only limit => do
    return if ← Suite.run name (root.getD suiteDirectory) only limit then 0 else 1

/-- Runs the command of a command line. -/
def report (texts : List String) : m Report := do
  match read texts with
  | .error e => return { code := 1, errors := "error: " ++ e.message ++ "\n" }
  | .ok command =>
    match ← (run command : ExceptT ToolError m Nat).run with
    | .error e => return { code := 2, errors := "Error: " ++ e.message ++ "\n" }
    | .ok code => return { code := code }

theorem exitCode_eq_zero_iff {s : Summary} :
    exitCode s = 0 ↔ s.state = .halted ∧ s.timedOut = false := by
  simp [exitCode, Summary.isSuccess]

end Command

end WordMachine
