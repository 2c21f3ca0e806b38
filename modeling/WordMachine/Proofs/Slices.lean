import Mathlib.Logic.Function.Iterate
import WordMachine.Proofs.Steps

/-!
# Runs in slices

A run with a limit is a loop around the step (`Machine.loop`). Before each turn it looks whether the
processor is still at work, and compares the count of instructions with what the count was when the
run began. This is the side that a user sees, and `Machine.IsSteppedTo` says it in these words: a
run ends at the first machine on the way that has stopped or has counted as many instructions as the
limit allows.

`Machine.run` never looks at the count. It goes down by one at each step, and so it agrees with the
loop only because of what a step counts: one instruction if it leaves the processor at work. A step
that aborts it counts for none, but then the run is over anyway. From there on everything about the
limit is a matter of how many steps there are, and these may be taken in slices.

What is executed is listed in order (`Machine.executed`). Two slices have lists that make up the
list of the whole, so that nothing falls between them and nothing is done twice.

## Main results

* `Machine.isSteppedTo_iff`: a run is the loop that looks at the count
* `Machine.executed_add`: the instructions of two slices are those of the whole
* `Machine.instructions_run`: all that is executed is counted once
* `Machine.run_sliced`: a run may be cut anywhere
-/

namespace WordMachine

namespace Machine

variable {m m' : Machine} {n limit : Nat}

/-! ### The loop around the step -/

/-- A machine goes on as long as its processor is at work and its count is below a limit. -/
def IsWithin (m : Machine) (limit : Nat) : Prop :=
  m.isRunning = true ∧ m.cpu.instructions < limit

/-- Where a machine gets to that is stepped until it has stopped or its count has come to a limit.
-/
def IsSteppedTo (m : Machine) (limit : Nat) (m' : Machine) : Prop :=
  ∃ t, step^[t] m = m' ∧ ¬ m'.IsWithin limit ∧ ∀ s < t, (step^[s] m).IsWithin limit

/-- A loop has one end. -/
theorem IsSteppedTo.unique {m'' : Machine} (h : m.IsSteppedTo limit m')
    (h' : m.IsSteppedTo limit m'') : m' = m'' := by
  obtain ⟨t, rfl, hend, hway⟩ := h
  obtain ⟨t', rfl, hend', hway'⟩ := h'
  rcases Nat.lt_trichotomy t t' with hlt | rfl | hlt
  · exact absurd (hway' t hlt) hend
  · rfl
  · exact absurd (hway t' hlt) hend'

theorem IsSteppedTo.refl (h : ¬ m.IsWithin limit) : m.IsSteppedTo limit m :=
  ⟨0, rfl, h, nofun⟩

/-- One turn in front of a loop. -/
theorem IsSteppedTo.cons (h : m.IsWithin limit) (hrest : m.step.IsSteppedTo limit m') :
    m.IsSteppedTo limit m' := by
  obtain ⟨t, rfl, hend, hway⟩ := hrest
  refine ⟨t + 1, rfl, hend, fun s hs => ?_⟩
  cases s with
  | zero => exact h
  | succ s => exact hway s (Nat.lt_of_succ_lt_succ hs)

/-- A run ends where the loop ends. -/
theorem isSteppedTo_run (n : Nat) (m : Machine) :
    m.IsSteppedTo (m.cpu.instructions + n) (run n m) := by
  induction n generalizing m with
  | zero => exact .refl fun h => Nat.lt_irrefl _ h.2
  | succ n ih =>
    rw [run_succ]
    cases hm : m.isRunning with
    | false =>
      rw [step_of_not_running hm, run_of_not_running hm]
      exact .refl fun h => Bool.false_ne_true (hm.symm.trans h.1)
    | true =>
      refine .cons ⟨hm, by omega⟩ ?_
      cases hstep : m.step.isRunning with
      | false =>
        -- An aborted step has not counted, but the loop is over.
        rw [run_of_not_running hstep]
        exact .refl fun h => Bool.false_ne_true (hstep.symm.trans h.1)
      | true =>
        have hrest := ih m.step
        rwa [instructions_step_of_running hstep, Nat.add_right_comm] at hrest

/-- **A run is the loop that looks at the count.** -/
theorem isSteppedTo_iff : m.IsSteppedTo (m.cpu.instructions + n) m' ↔ m' = run n m := by
  constructor
  · intro h
    exact h.unique (isSteppedTo_run n m)
  · rintro rfl
    exact isSteppedTo_run n m

/-! ### What is executed -/

/-- The instruction that the next step executes, if there is one. -/
def fetched? (m : Machine) : Option Inst :=
  if m.isRunning then (m.cpu.memory.readAt m.cpu.regs.pc).map Inst.decode else none

/-- The instructions that a run executes, in order. -/
def executed : Nat → Machine → List Inst
  | 0, _ => []
  | n + 1, m => m.fetched?.toList ++ executed n m.step

/-- The instructions of two slices are those of the whole. -/
theorem executed_add (n k : Nat) (m : Machine) :
    executed (n + k) m = executed n m ++ executed k (run n m) := by
  induction n generalizing m with
  | zero => rw [Nat.zero_add, executed, run, List.nil_append]
  | succ n ih => rw [Nat.succ_add, executed, ih, executed, run_succ, List.append_assoc]

/-- A step counts what it executes. -/
theorem instructions_step_eq (m : Machine) :
    m.step.cpu.instructions = m.cpu.instructions + m.fetched?.toList.length := by
  rw [instructions_step, fetched?]
  cases m.isRunning with
  | false => rfl
  | true => cases m.cpu.memory.readAt m.cpu.regs.pc <;> rfl

/-- **All that is executed is counted once.** -/
theorem instructions_run (n : Nat) (m : Machine) :
    (run n m).cpu.instructions = m.cpu.instructions + (executed n m).length := by
  induction n generalizing m with
  | zero => rfl
  | succ n ih =>
    rw [run_succ, ih, instructions_step_eq, executed, List.length_append, Nat.add_assoc]

/-! ### What a run answers -/

/-- No step leaves a processor in the state that only stands for an answer. -/
theorem state_step_ne_timeout (h : m.cpu.state ≠ .timeout) : m.step.cpu.state ≠ .timeout := by
  rcases m.continues_step with hstep | ⟨-, -, hstep⟩
  · rcases hstep.state_eq with heq | heq <;> rw [heq]
    · exact h
    · nofun
  · rw [hstep]
    nofun

theorem state_run_ne_timeout (h : m.cpu.state ≠ .timeout) (n : Nat) :
    (run n m).cpu.state ≠ .timeout := by
  induction n generalizing m with
  | zero => exact h
  | succ n ih =>
    rw [run_succ]
    exact ih (state_step_ne_timeout h)

end Machine

namespace RunState

/-- A state that is not at work is its own answer. -/
theorem answer_of_ne {state : RunState} (h : state ≠ .running) : state.answer = state := by
  cases state with
  | running => exact absurd rfl h
  | _ => rfl

theorem answer_eq_timeout_iff {state : RunState} (h : state ≠ .timeout) :
    state.answer = .timeout ↔ state = .running := by
  constructor
  · intro hanswer
    by_contra hne
    exact h ((answer_of_ne hne).symm.trans hanswer)
  · rintro rfl
    rfl

end RunState

namespace Machine

theorem answer_eq_timeout_iff {m : Machine} (h : m.cpu.state ≠ .timeout) :
    m.answer = .timeout ↔ m.isRunning = true := by
  rw [answer]
  split
  · next hrunning => exact iff_of_true rfl hrunning
  · next hstopped => exact iff_of_false h hstopped

/-- A machine whose bank has not failed answers with what its processor's state stands for. -/
theorem answer_eq {m : Machine} (h : m.bank.hasFailed = false) : m.answer = m.cpu.state.answer := by
  rw [answer]
  split
  · next hrunning =>
    rw [(isRunning_iff.mp hrunning).1]
    rfl
  · next hstopped =>
    exact (RunState.answer_of_ne fun hstate => hstopped (isRunning_iff.mpr ⟨hstate, h⟩)).symm

/-- **A run may be cut anywhere.** Take any machine, its processor being in a state of its own, and
any limits. A run leaves the one machine that steps lead to until it has stopped or has counted as
many instructions as the limit allows, and it answers that it was out of steps exactly if the
processor is then still at work, and with the processor's state otherwise. Two runs, one after the
other, leave the machine of one run with both limits together, and the second of them gives its
answer. What the two execute is, in order, what the one executes, and each instruction is counted
once. All of this is so of the loop that compares the count, the machine and the answer that it ends
with. -/
theorem run_sliced {m : Machine} (h : m.cpu.state ≠ .timeout) (n k : Nat) :
    (∀ m', m.IsSteppedTo (m.cpu.instructions + n) m' ↔ m' = run n m) ∧
    ((run n m).cpu.state.answer = .timeout ↔ (run n m).cpu.state = .running) ∧
    ((run n m).cpu.state ≠ .running → (run n m).cpu.state.answer = (run n m).cpu.state) ∧
    run k (run n m) = run (n + k) m ∧
    (run k (run n m)).cpu.state.answer = (run (n + k) m).cpu.state.answer ∧
    executed n m ++ executed k (run n m) = executed (n + k) m ∧
    (run (n + k) m).cpu.instructions =
      m.cpu.instructions + (executed n m).length + (executed k (run n m)).length ∧
    (m.runFor n).2 = run n m ∧
    ((m.runFor n).1 = .timeout ↔ (run n m).isRunning = true) ∧
    ((run n m).isRunning = false → (m.runFor n).1 = (run n m).cpu.state) ∧
    ((run n m).bank.hasFailed = false → (m.runFor n).1 = (run n m).cpu.state.answer) ∧
    (m.runFor n).2.runFor k = m.runFor (n + k) := by
  have hrun := (run_add n k m).symm
  have hstate := state_run_ne_timeout h n
  refine ⟨fun _ => isSteppedTo_iff, RunState.answer_eq_timeout_iff hstate, RunState.answer_of_ne,
    hrun, by rw [hrun], (executed_add n k m).symm, ?_, ?_, ?_, ?_, ?_, ?_⟩
  · rw [← hrun, instructions_run, instructions_run]
  · rw [runFor_eq]
  · rw [runFor_eq]
    exact answer_eq_timeout_iff hstate
  · intro hstopped
    rw [runFor_eq]
    exact if_neg (Bool.eq_false_iff.mp hstopped)
  · intro hfailed
    rw [runFor_eq]
    exact answer_eq hfailed
  · rw [runFor_eq, runFor_eq, runFor_eq, hrun]

/-- A machine that halts on its second instruction. With a limit of two it halts on the last
instruction that it may execute, and that is its answer, also if it is reached in two slices. -/
theorem run_sliced_halting :
    let m : Machine := { cpu := { Processor.new 1 1 0 with
      memory := (Memory.blank 1 0).writeAt 1 57344 } }
    m.cpu.state ≠ .timeout ∧
      (run 1 m).cpu.state.answer = .timeout ∧
      run 1 (run 1 m) = run 2 m ∧ (run 1 (run 1 m)).cpu.state.answer = .halted ∧
      (executed 1 (run 1 m)).map Inst.isHalt = [true] ∧
      ((m.runFor 1).2.runFor 1).1 = .halted := by
  intro m
  have hstate : m.cpu.state ≠ .timeout := nofun
  obtain ⟨-, htimeout, -, hrun, hanswer, -, -, -, -, -, -, hslices⟩ := run_sliced hstate 1 1
  refine ⟨hstate, htimeout.mpr (by decide +kernel), hrun, hanswer.trans (by decide +kernel), ?_, ?_⟩
  · decide +kernel
  · rw [hslices, runFor_eq]
    decide +kernel

end Machine

end WordMachine
