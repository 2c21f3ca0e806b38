import WordMachine.Session.Execution
import WordMachine.Text.Line

/-!
# The debugger

The debugger is a supervisor that shows where the processor is and asks for a command before every
step. Once it is told to continue, it lets the machine run and asks no more. Where no more commands
come, it stops.

## Main statements

* `Debugger.Command.parse?_of_trim`: white space around a command means nothing
* `Debugger.supervise_continuing`: a debugger that was told to continue shows nothing
-/

namespace WordMachine

namespace Debugger

/-- What a debugger can be told. -/
inductive Command where
  | step
  | proceed
  | stack
  | exit
  deriving DecidableEq, Repr, Inhabited

/-- The command of a line, where it is one. An empty line is a step. -/
def Command.parse? (line : List Char) : Option Command :=
  match String.ofList (Text.trim line) with
  | "" | "n" | "next" => some step
  | "c" | "continue" => some proceed
  | "s" | "stack" => some stack
  | "exit" => some exit
  | _ => none

variable {m : Type → Type} [Monad m] [Console m] {ε : Type}

/-- The width of the debugger's screen. -/
def columns : Nat := 60

/-- How many instructions are shown behind the present one. -/
def upcoming : Word := 2

/-- The line that asks for a command. -/
def prompt : String := "[ENTER/n to step, c to continue, s for the stack, exit to stop]"

/-- A text in bold white letters on a green bar that is as wide as the screen. -/
def bar (text : String) : String :=
  "\x1b[1;48;5;22;37m " ++ Console.padRight (columns - 2) text ++ " \x1b[0m"

/-- Shows the present instruction and the next ones, and the registers if asked for. -/
def showPlace (verbose : Bool) (machine : Machine) : m Unit := do
  let pc := machine.cpu.regs.pc
  let around := Decoded.window machine.cpu.peek pc 0 upcoming
  let (present, next) := match around with
    | first :: rest =>
      if first.address = pc then (first.text, rest) else (Numeral.lower pc ++ ": <unmapped>", [])
    | [] => (Numeral.lower pc ++ ": <unmapped>", [])
  Console.writeLine (Console.rule columns)
  Console.writeLine (bar present)
  next.forM fun d => Console.writeLine ("  " ++ d.text)
  if verbose then
    Console.writeLine (Console.rule columns)
    Console.write machine.cpu.regs.text
  Console.writeLine (Console.rule columns)

/-- Shows the words from the top of the stack to the end of its page. -/
def showStack (machine : Machine) : m Unit :=
  let depth := Word.pageWords - Word.offset (machine.cpu.regs.get .r1)
  (machine.cpu.stack .r1 depth).forM fun (addr, w) =>
    Console.writeLine ("  " ++ Numeral.lower addr ++ ": " ++ Numeral.lower w)

/-- Asks until a command comes that says how to go on, at most so many times. -/
def ask (machine : Machine) : Nat → m Command
  | 0 => pure .exit
  | tries + 1 => do
    Console.writeLine prompt
    match ← Console.readLine with
    | none => pure .exit
    | some line =>
      match Command.parse? line with
      | some .stack =>
        showStack machine
        ask machine tries
      | some command => pure command
      | none =>
        Console.writeLine ("Unknown command: '" ++ String.ofList (Text.trim line) ++ "'")
        ask machine tries

/-- More questions than anyone answers at one place. -/
def patience : Nat := UInt64.size

/-- The supervisor that asks its user. Its state tells whether it was told to continue. -/
def supervise (verbose : Bool) (machine : Machine) : StateT Bool m (Except ε Turn) := do
  if ← get then pure (.ok .run)
  else
    showPlace verbose machine
    match ← ask machine patience with
    | .step => pure (.ok .step)
    | .proceed =>
      set true
      pure (.ok .run)
    | _ => pure (.ok .stop)

/-- Executes a machine in the debugger. One that is not interactive continues from the start. -/
def execute (x : Execution) (verbose interactive : Bool) (machine : Machine) :
    m (Summary × Machine) := do
  let (answer, _) ← ((x.executeWith (supervise verbose) machine :
    StateT Bool m (Except Empty Summary × Machine)).run !interactive)
  match answer with
  | (.ok summary, after) => pure (summary, after)
  | (.error e, _) => nomatch e

theorem Command.parse?_of_trim {s t : List Char} (h : Text.trim s = Text.trim t) :
    parse? s = parse? t := by
  simp [parse?, h]

theorem supervise_continuing [LawfulMonad m] (verbose : Bool) (machine : Machine) :
    (supervise (ε := ε) verbose machine : StateT Bool m _).run true =
      pure (.ok .run, true) := by
  simp [supervise]

end Debugger

end WordMachine
