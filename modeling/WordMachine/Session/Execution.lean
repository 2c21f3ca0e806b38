import WordMachine.Disassembly
import WordMachine.Machine.Step
import WordMachine.Session.Console

/-!
# Supervised execution

A machine is executed up to a limit of instructions under a supervisor, which is asked before
every turn how to go on: to run as far as the limit allows, to take one step, or to stop. Where
something is to be shown of every instruction, running is stepping as well.

## Main statements

* `Execution.remaining_behind_lt`: every turn that does not end the execution uses up some of its
  limit
* `Execution.continueWith_of_remaining_eq_zero`: out of instructions is out of time, whoever would
  be asked
-/

namespace WordMachine

/-- What is shown of each instruction before it is executed. -/
inductive Verbosity where
  | silent
  | registers
  | disassembly
  deriving DecidableEq, Repr, Inhabited

/-- How to go on. -/
inductive Turn where
  /-- As far as the limit allows. -/
  | run
  /-- By one step. -/
  | step
  | stop
  deriving DecidableEq, Repr, Inhabited

/-- How an execution is supervised. -/
structure Execution where
  /-- The most instructions that are executed, unless there is no limit. -/
  limit : Option Nat := some 50000000
  /-- Whether a fault is reported. -/
  reportsFaults : Bool := false
  /-- Whether start and end are announced. -/
  announces : Bool := false
  verbosity : Verbosity := .silent
  deriving DecidableEq, Repr, Inhabited

/-- How an execution ended. -/
structure Summary where
  state : RunState
  /-- Whether the limit was reached. -/
  timedOut : Bool
  /-- How many instructions were executed. -/
  instructions : Nat
  deriving DecidableEq, Repr, Inhabited

/-- Whether the processor halted within the limit. -/
def Summary.isSuccess (s : Summary) : Bool := s.state == .halted && !s.timedOut

/-- The announcement of an execution's end. -/
def Summary.text (s : Summary) : String :=
  "CPU Stop (in state " ++ s.state.text ++ (if s.timedOut then "/Timeout" else "") ++ "), "
    ++ toString s.instructions ++ " instructions executed"

namespace Execution

/-- The limit as a number of steps. -/
def steps (x : Execution) : Nat := x.limit.getD Machine.unlimited

variable {m : Type → Type} [Monad m] [Console m] {ε : Type}

/-- Shows the instruction that comes next, as far as that is asked for. -/
def trace (verbosity : Verbosity) (machine : Machine) : m Unit := do
  let regs := machine.cpu.regs
  match verbosity with
  | .silent => pure ()
  | .registers => Console.write regs.text
  | .disassembly =>
    match machine.cpu.peek regs.pc with
    | some w => Console.writeLine (Decoded.text ⟨regs.pc, w⟩)
    | none => pure ()
    Console.write regs.text

/-- Shows what aborted the processor, if that is to be reported. -/
def reportFault (x : Execution) (machine : Machine) : m Unit :=
  if x.reportsFaults then do
    match machine.cpu.fault with
    | some fault => Console.writeLine ("CPU Aborted: " ++ fault.message)
    | none => pure ()
    Console.write machine.cpu.regs.text
  else pure ()

/-- Shows the announcement of a start or an end, if it is asked for. -/
def announce (x : Execution) (text : String) : m Unit :=
  if x.announces then Console.writeLine text else pure ()

/-- How many instructions may still be executed, of those that the limit allows once `start` have
been counted. -/
def remaining (x : Execution) (start : Nat) (machine : Machine) : Nat :=
  start + x.steps - machine.cpu.instructions

/-- A turn: the answer of the run or of the step, and the machine behind it. -/
def behind (x : Execution) (start : Nat) (turn : Turn) (machine : Machine) : RunState × Machine :=
  if turn = .run ∧ x.verbosity = .silent then machine.runFor (x.remaining start machine)
  else machine.stepped

/-- Behind a turn that leaves the processor at work there is less of the limit left. -/
theorem remaining_behind_lt (x : Execution) {start : Nat} {machine : Machine} (turn : Turn)
    (hleft : x.remaining start machine ≠ 0)
    (hrunning : (x.behind start turn machine).2.isRunning = true) :
    x.remaining start (x.behind start turn machine).2 < x.remaining start machine := by
  have hcounted : machine.cpu.instructions < (x.behind start turn machine).2.cpu.instructions := by
    unfold behind at hrunning ⊢
    split at hrunning
    · rw [Machine.runFor_eq] at hrunning
      rw [if_pos ‹_›, Machine.runFor_eq, Machine.instructions_run_of_running hrunning]
      omega
    · rw [if_neg ‹_›, Machine.stepped, Machine.instructions_step_of_running hrunning]
      omega
  simp only [remaining] at hleft ⊢
  omega

/-- Executes as the supervisor says, as long as the processor is at work and the limit allows, and
tells whether it was the limit that ended it. Where the supervisor fails, the machine is left as it
is. -/
def continueWith (x : Execution) (supervise : Machine → m (Except ε Turn)) (start : Nat)
    (machine : Machine) : m (Except ε Bool × Machine) :=
  if _hleft : x.remaining start machine = 0 then pure (.ok true, machine)
  else do
    match ← supervise machine with
    | .error e => pure (.error e, machine)
    | .ok .stop => pure (.ok false, machine)
    | .ok turn =>
      -- A run without anything to show shows nothing here either.
      trace x.verbosity machine
      let turned := x.behind start turn machine
      match turned.1 with
      | .running | .timeout =>
        -- Nothing goes on with a bank that has failed.
        if _hrunning : turned.2.isRunning = true then continueWith x supervise start turned.2
        else pure (.ok false, turned.2)
      | .halted => pure (.ok false, turned.2)
      | .aborted =>
        reportFault x turned.2
        pure (.ok false, turned.2)
termination_by x.remaining start machine
decreasing_by all_goals exact x.remaining_behind_lt turn _hleft _hrunning

/-- Executes a machine under a supervisor. -/
def executeWith (x : Execution) (supervise : Machine → m (Except ε Turn)) (machine : Machine) :
    m (Except ε Summary × Machine) := do
  announce x "CPU Start"
  match ← continueWith x supervise machine.cpu.instructions machine with
  | (.error e, after) => pure (.error e, after)
  | (.ok timedOut, after) =>
    let summary : Summary :=
      { state := after.cpu.state
        timedOut := timedOut
        instructions := after.cpu.instructions - machine.cpu.instructions }
    announce x summary.text
    pure (.ok summary, after)

/-- The supervisor that lets every machine run. -/
def freely (_ : Machine) : m (Except Empty Turn) := pure (.ok .run)

/-- Executes a machine. -/
def execute (x : Execution) (machine : Machine) : m (Summary × Machine) := do
  match ← executeWith x freely machine with
  | (.ok summary, after) => pure (summary, after)
  | (.error e, _) => nomatch e

theorem continueWith_of_remaining_eq_zero {x : Execution} {start : Nat} {machine : Machine}
    (h : x.remaining start machine = 0) (supervise : Machine → m (Except ε Turn)) :
    continueWith x supervise start machine = pure (.ok true, machine) := by
  rw [continueWith, dif_pos h]

end Execution

end WordMachine
