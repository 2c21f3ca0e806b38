import WordMachine.Session.Execution

/-!
# Supervised and unsupervised executions

A supervisor is asked before every turn and may keep a state of its own, so it can answer in any
pattern. As long as it neither stops the machine nor fails, it has no say in where the machine ends.
A run as far as the limit allows and a single step are two ways of going along the same path, and
what is left of the limit is read off the count of instructions in both.

One equation carries this, `run_remaining_behind`: behind any turn, what is then left of the limit
leads to where the limit would have led before it. Every turn uses up some of the limit, so an
execution comes to its end by induction on what is left.

## Main results

* `Execution.fst_executeWith`: where an execution ends, and its summary
* `Execution.executeWith_agrees`: that is where the machine ends unsupervised, and silently
* `Execution.fst_executeWith_of_stopped`: where it ends without a limit
-/

namespace WordMachine

namespace Machine

/-- A run counts as many instructions as its limit at most. -/
theorem instructions_run_le (n : Nat) (m : Machine) :
    m.cpu.instructions ≤ (run n m).cpu.instructions ∧
      (run n m).cpu.instructions ≤ m.cpu.instructions + n := by
  induction n generalizing m with
  | zero => exact ⟨Nat.le_refl _, Nat.le_refl _⟩
  | succ n ih =>
    have hrest := ih m.step
    have hstep := m.instructions_step
    rw [run_succ]
    split at hstep <;> omega

end Machine

namespace Execution

/-- **What is left of the limit behind a turn leads to where the limit would have led before it.**
-/
theorem run_remaining_behind (x : Execution) {start : Nat} {machine : Machine} (turn : Turn)
    (hleft : x.remaining start machine ≠ 0) :
    Machine.run (x.remaining start (x.behind start turn machine).2) (x.behind start turn machine).2
      = Machine.run (x.remaining start machine) machine := by
  unfold behind
  split
  · rw [Machine.runFor_eq]
    cases hrunning : (Machine.run (x.remaining start machine) machine).isRunning with
    | false => exact Machine.run_of_not_running hrunning _
    | true =>
      have hnone : x.remaining start (Machine.run (x.remaining start machine) machine) = 0 := by
        rw [remaining, Machine.instructions_run_of_running hrunning, remaining]
        omega
      rw [hnone, Machine.run]
  · obtain ⟨n, hn⟩ := Nat.exists_eq_succ_of_ne_zero hleft
    rw [hn, Machine.run_succ, Machine.stepped]
    cases hrunning : machine.step.isRunning with
    | false => rw [Machine.run_of_not_running hrunning, Machine.run_of_not_running hrunning]
    | true =>
      have hrest : x.remaining start machine.step = n := by
        rw [remaining] at hn
        rw [remaining, Machine.instructions_step_of_running hrunning]
        omega
      rw [hrest]

/-- A turn that leaves the processor at work answers so, or that it was out of steps. -/
theorem answer_behind (x : Execution) {start : Nat} {turn : Turn} {machine : Machine}
    (hrunning : (x.behind start turn machine).2.isRunning = true) :
    (x.behind start turn machine).1 = .running ∨ (x.behind start turn machine).1 = .timeout := by
  unfold behind at hrunning ⊢
  split
  · rw [if_pos ‹_›, Machine.runFor_eq] at hrunning
    rw [Machine.runFor_eq]
    exact .inr (if_pos hrunning)
  · rw [if_neg ‹_›] at hrunning
    exact .inl (Machine.isRunning_iff.mp hrunning).1

section Supervised

variable {σ : Type} {ε : Type}

theorem run_bind_of_eq {α β : Type} {act : StateM σ α} {s s' : σ} {a : α}
    (h : act.run s = (a, s')) (next : α → StateM σ β) : (act >>= next).run s = (next a).run s' := by
  rw [StateT.run_bind, h]
  rfl

/-- A supervisor that never stops a machine and never fails, whatever its own state is. -/
def LetsGoOn (supervise : Machine → StateM σ (Except ε Turn)) : Prop :=
  ∀ machine s, ((supervise machine).run s).1 = .ok .run ∨ ((supervise machine).run s).1 = .ok .step

variable [Console (StateM σ)] {supervise : Machine → StateM σ (Except ε Turn)}

/-- What a turn answers decides how an execution goes on, and so does whether the processor is still
at work. Both agree. -/
theorem fst_settle (x : Execution) {turned : RunState × Machine}
    (hanswer : turned.2.isRunning = true → turned.1 = .running ∨ turned.1 = .timeout)
    (next : Machine → StateM σ (Except ε Bool × Machine)) (s : σ) :
    (StateT.run (match turned.1 with
      | .running | .timeout =>
        if _hrunning : turned.2.isRunning = true then next turned.2
        else pure (.ok false, turned.2)
      | .halted => pure (.ok false, turned.2)
      | .aborted => do
        reportFault x turned.2
        pure (.ok false, turned.2)) s).1 =
      if turned.2.isRunning = true then ((next turned.2).run s).1 else (.ok false, turned.2) := by
  obtain ⟨state, after⟩ := turned
  by_cases hrunning : after.isRunning = true
  · obtain rfl | rfl := hanswer hrunning
    · simp only [dif_pos hrunning, if_pos hrunning]
    · simp only [dif_pos hrunning, if_pos hrunning]
  · rw [if_neg hrunning]
    cases state with
    | running | timeout =>
      simp only [dif_neg hrunning]
      rfl
    | halted => rfl
    | aborted =>
      rcases hreport : (reportFault (m := StateM σ) x after).run s with ⟨_, reported⟩
      dsimp only
      rw [run_bind_of_eq hreport]
      rfl

/-- One turn of an execution. Its supervisor, or what is shown, may change the state. -/
theorem exists_fst_continueWith (x : Execution) {start : Nat} {machine : Machine}
    (hleft : x.remaining start machine ≠ 0) {s : σ} {turn : Turn}
    (hturn : ((supervise machine).run s).1 = .ok turn) (hstop : turn ≠ .stop) :
    ∃ s', ((x.continueWith supervise start machine).run s).1 =
      if (x.behind start turn machine).2.isRunning = true then
        ((x.continueWith supervise start (x.behind start turn machine).2).run s').1
      else (.ok false, (x.behind start turn machine).2) := by
  rcases hsaid : (supervise machine).run s with ⟨answer, said⟩
  rw [hsaid] at hturn
  obtain rfl : answer = .ok turn := hturn
  rcases htrace : (trace (m := StateM σ) x.verbosity machine).run said with ⟨_, shown⟩
  refine ⟨shown, ?_⟩
  rw [continueWith, dif_neg hleft, run_bind_of_eq hsaid]
  cases turn with
  | stop => exact absurd rfl hstop
  | _ =>
    dsimp only
    rw [run_bind_of_eq htrace]
    exact x.fst_settle x.answer_behind (x.continueWith supervise start) shown

theorem fst_continueWith (x : Execution) (h : LetsGoOn supervise) (start : Nat) (machine : Machine)
    (s : σ) :
    ((x.continueWith supervise start machine).run s).1 =
      (.ok (x.remaining start machine == 0
          || (Machine.run (x.remaining start machine) machine).isRunning),
        Machine.run (x.remaining start machine) machine) := by
  -- The induction is on what is left of the limit, of which every turn uses up some.
  induction hn : x.remaining start machine using Nat.strongRecOn generalizing machine s with
  | ind n ih =>
  subst hn
  by_cases hleft : x.remaining start machine = 0
  · rw [continueWith_of_remaining_eq_zero hleft, hleft]
    rfl
  · have hturn : ∃ turn, ((supervise machine).run s).1 = .ok turn ∧ turn ≠ .stop := by
      rcases h machine s with h | h <;> exact ⟨_, h, by decide⟩
    obtain ⟨turn, hturn, hstop⟩ := hturn
    obtain ⟨s', hfst⟩ := x.exists_fst_continueWith hleft hturn hstop
    have hrun := x.run_remaining_behind turn hleft
    rw [hfst, beq_eq_false_iff_ne.mpr hleft, Bool.false_or]
    split
    · next hrunning =>
      rw [ih _ (x.remaining_behind_lt turn hleft hrunning) _ _ rfl, hrun]
      by_cases hnone : x.remaining start (x.behind start turn machine).2 = 0
      · rw [hnone] at hrun
        rw [← hrun, Machine.run, hrunning, Bool.or_true]
      · rw [beq_eq_false_iff_ne.mpr hnone, Bool.false_or]
    · next hstopped =>
      rw [Bool.not_eq_true] at hstopped
      rw [Machine.run_of_not_running hstopped] at hrun
      rw [← hrun, hstopped]

/-- The summary of a machine that goes as far as a limit allows. -/
def summary (n : Nat) (machine : Machine) : Summary :=
  { state := (Machine.run n machine).cpu.state
    timedOut := n == 0 || (Machine.run n machine).isRunning
    instructions := (Machine.run n machine).cpu.instructions - machine.cpu.instructions }

/-- **Where an execution ends.** A supervisor that goes on, and whatever is shown, change nothing
about it. -/
theorem fst_executeWith (x : Execution) (h : LetsGoOn supervise) (machine : Machine) (s : σ) :
    ((x.executeWith supervise machine).run s).1 =
      (.ok (summary x.steps machine), Machine.run x.steps machine) := by
  have hsteps : x.remaining machine.cpu.instructions machine = x.steps := Nat.add_sub_cancel_left ..
  rcases hstart : (announce (m := StateM σ) x "CPU Start").run s with ⟨_, started⟩
  have hcontinue := x.fst_continueWith h machine.cpu.instructions machine started
  rw [hsteps] at hcontinue
  rcases hrun : (x.continueWith supervise machine.cpu.instructions machine).run started with
    ⟨answer, ended⟩
  rw [hrun] at hcontinue
  obtain rfl := hcontinue
  rw [executeWith, run_bind_of_eq hstart, run_bind_of_eq hrun]
  rfl

theorem fst_execute (x : Execution) (machine : Machine) (s : σ) :
    ((x.execute machine : StateM σ _).run s).1 =
      (summary x.steps machine, Machine.run x.steps machine) := by
  have hfreely : LetsGoOn (σ := σ) freely := fun _ _ => Or.inl rfl
  have hfst := x.fst_executeWith hfreely machine s
  rcases hrun : (x.executeWith (m := StateM σ) freely machine).run s with ⟨answer, s'⟩
  rw [hrun] at hfst
  obtain rfl := hfst
  rw [execute, run_bind_of_eq hrun]
  rfl

end Supervised

theorem timedOut_summary {n : Nat} {machine : Machine} :
    (summary n machine).timedOut = true ↔
      n = 0 ∨ (Machine.run n machine).isRunning = true ∧ (summary n machine).instructions = n := by
  rw [summary, Bool.or_eq_true, beq_iff_eq]
  dsimp only
  constructor
  · rintro (hn | hrunning)
    · exact Or.inl hn
    · rw [Machine.instructions_run_of_running hrunning, Nat.add_sub_cancel_left]
      exact Or.inr ⟨hrunning, rfl⟩
  · rintro (hn | ⟨hrunning, -⟩)
    · exact Or.inl hn
    · exact Or.inr hrunning

/-- **Without a limit an execution ends where the processor stops**, as long as its instructions can
be counted. -/
theorem fst_executeWith_of_stopped {σ ε : Type} [Console (StateM σ)] {x : Execution}
    (hlimit : x.limit = none) {supervise : Machine → StateM σ (Except ε Turn)}
    (hsupervise : LetsGoOn supervise) {n : Nat} {machine : Machine}
    (hstopped : (Machine.run n machine).isRunning = false)
    (hcount : (Machine.run n machine).cpu.instructions < UInt64.size) (s : σ) :
    ((x.executeWith supervise machine).run s).1 =
      (.ok
        { state := (Machine.run n machine).cpu.state
          timedOut := false
          instructions := (Machine.run n machine).cpu.instructions - machine.cpu.instructions },
        Machine.run n machine) := by
  have hsteps : x.steps = Machine.unlimited := by rw [steps, hlimit, Option.getD_none]
  rw [x.fst_executeWith hsupervise, hsteps, summary, Machine.run_unlimited hstopped hcount,
    hstopped]
  rfl

/-- **Debugging does not change the run.** Under a limit of instructions, an execution whose
supervisor goes on ends with the machine and the summary of the execution without a supervisor, in
which nothing is shown. This machine is the one that so many steps lead to, and its processor's
state is that of the summary. No more instructions are executed than the limit allows, and it is the
limit that ended the execution if it allows none, or if all of it was executed and the processor is
still at work. -/
theorem executeWith_agrees {σ τ ε : Type} [Console (StateM σ)] [Console (StateM τ)] {n : Nat}
    {x : Execution} (hlimit : x.limit = some n) {supervise : Machine → StateM σ (Except ε Turn)}
    (hsupervise : LetsGoOn supervise) (machine : Machine) (s : σ) (t : τ) :
    ∃ summary after,
      after = Machine.run n machine ∧
      summary.state = after.cpu.state ∧
      ((x.executeWith supervise machine).run s).1 = (.ok summary, after) ∧
      ((execute { limit := some n } machine : StateM τ _).run t).1 = (summary, after) ∧
      after.cpu.instructions = machine.cpu.instructions + summary.instructions ∧
      summary.instructions ≤ n ∧
      (summary.timedOut = true ↔
        n = 0 ∨ after.isRunning = true ∧ summary.instructions = n) := by
  have hsteps : x.steps = n := by rw [steps, hlimit, Option.getD_some]
  have hbounds := Machine.instructions_run_le n machine
  refine ⟨summary n machine, Machine.run n machine, rfl, rfl, ?_, ?_, ?_, ?_, timedOut_summary⟩
  · rw [x.fst_executeWith hsupervise, hsteps]
  · exact fst_execute _ machine t
  · exact (Nat.add_sub_cancel' hbounds.1).symm
  · exact Nat.sub_le_of_le_add (Nat.add_comm _ _ ▸ hbounds.2)

/-- A supervisor that says by turns to run and to step, and shows that it was asked. -/
def alternate (_ : Machine) : StateM Transcript (Except Empty Turn) := fun t =>
  (.ok (if t.output.length % 2 = 0 then .run else .step), t.write "?")

/-- A machine with a page of zeros is still at work after two instructions, which lead to the third
address. -/
theorem executeWith_agrees_alternate :
    LetsGoOn alternate ∧
      ∃ after,
        after = Machine.run 2 { cpu := .new 1 1 0 } ∧ after.cpu.regs.pc = 2 ∧
        ((executeWith { limit := some 2, reportsFaults := true, verbosity := .disassembly }
            alternate { cpu := .new 1 1 0 }).run {}).1 = (.ok ⟨.running, true, 2⟩, after) ∧
        ((execute { limit := some 2 } { cpu := .new 1 1 0 } : StateM Transcript _).run {}).1 =
          (⟨.running, true, 2⟩, after) := by
  have halternate : LetsGoOn alternate := by
    intro machine t
    change (Except.ok (if t.output.length % 2 = 0 then Turn.run else .step) : Except Empty _) = _ ∨
      (Except.ok (if t.output.length % 2 = 0 then Turn.run else .step) : Except Empty _) = _
    split
    · exact Or.inl rfl
    · exact Or.inr rfl
  obtain ⟨ended, after, hafter, -, hsupervised, hsilent, -⟩ :=
    executeWith_agrees (n := 2)
      (x := { limit := some 2, reportsFaults := true, verbosity := .disassembly }) rfl halternate
      { cpu := .new 1 1 0 } {} ({} : Transcript)
  have hended : ended = ⟨.running, true, 2⟩ := by
    have hfst := congrArg Prod.fst (hsilent.symm.trans (fst_execute _ _ _))
    exact hfst.trans (by decide +kernel)
  have hpc : after.cpu.regs.pc = 2 := by
    rw [hafter]
    decide +kernel
  rw [hended] at hsupervised hsilent
  exact ⟨halternate, after, hafter, hpc, hsupervised, hsilent⟩

end Execution

end WordMachine
