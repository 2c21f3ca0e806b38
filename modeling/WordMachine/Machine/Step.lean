import WordMachine.Alu
import WordMachine.Isa.Instruction
import WordMachine.Machine.Bank

/-!
# Execution

A machine is a processor together with the devices that it reaches. A step fetches the instruction
at the program counter, takes its source value, for a compute also the value of the destination, and
stores the result if the effect allows it. A push moves the pointer before its word is stored, a pop
after its word was taken. A compute sets the flags and the spilled word whether or not its result
is stored.

The processor halts at the halt instruction, and at a jump to itself that nothing can ever turn
elsewhere: one that is always taken and whose target does not come from memory. It does not go on
either once the bank has failed, whatever its state.

## Main statements

* `Machine.step_of_not_running`: a processor that stopped stays as it is
* `Machine.run_add`: a run may be interrupted and taken up again
* `Machine.instructions_step`: a step counts as one instruction unless there is none to fetch
* `Machine.runFor_eq`: the loop that compares the count with a limit takes as many steps as the
  limit says
* `Machine.run_unlimited`: no limit is a limit that no count comes to
* `Bank.snd_runFor`: a processor on a bank is left alike, with its answer or without
-/

namespace WordMachine

/-- The answer of a run that left its processor in a state. -/
def RunState.answer : RunState → RunState
  | running => timeout
  | state => state

/-- A processor and the devices that it reaches. -/
structure Machine where
  cpu : Processor
  bank : Bank := {}
  deriving DecidableEq

namespace Machine

/-- A machine without other devices, its processor running a program from address 0 on. -/
def boot (id : Word) (pages : Nat) (ws : List Word) : Except LoadError Machine :=
  ((Processor.new id pages 0).load ws).map fun cpu => { cpu := cpu }

/-- A machine without other devices, its processor running an image from address 0 on. -/
def bootImage (id : Word) (pages : Nat) (bs : List UInt8) : Except LoadError Machine :=
  ((Processor.new id pages 0).loadBytes bs).map fun cpu => { cpu := cpu }

/-- The machine that programs are run on unless they ask for another: a processor of id 1 whose
memory takes up the whole address space. -/
def start (ws : List Word) : Except LoadError Machine := boot 1 Processor.defaultPages ws

/-- The machine that images are run on. -/
def startImage (bs : List UInt8) : Except LoadError Machine :=
  bootImage 1 Processor.defaultPages bs

/-- Whether the processor is at work. Once the bank has failed, it is not. -/
def isRunning (m : Machine) : Bool :=
  match m.cpu.state with
  | .running => !m.bank.hasFailed
  | _ => false

/-- The machine with other registers. -/
def withRegs (m : Machine) (regs : Registers) : Machine :=
  { m with cpu := { m.cpu with regs := regs } }

/-- The machine with its processor in another state. -/
def withState (m : Machine) (state : RunState) : Machine :=
  { m with cpu := { m.cpu with state := state } }

/-- The machine with its processor stopped by a fault. -/
def abort (m : Machine) (fault : Fault) : Machine :=
  { m with cpu := { m.cpu with state := .aborted, fault := some fault } }

/-- What the processor reads at an address, and the machine behind it. -/
def read (m : Machine) (addr : Word) : Word × Machine :=
  match m.cpu.route addr with
  | .own (.memory addr) => ((m.cpu.memory.readAt addr).getD 0, m)
  | .own (.control index) =>
    let (w, cpu) := m.cpu.readControl m.cpu.id index
    (w, { m with cpu := cpu })
  | .peer number place =>
    match m.cpu.peer? number with
    | none => (0, m)
    | some slot =>
      let (w, bank) := m.bank.read m.cpu.id slot place
      (w, { m with bank := bank })

/-- The machine behind the processor's write to an address. -/
def write (m : Machine) (addr w : Word) : Machine :=
  match m.cpu.route addr with
  | .own (.memory addr) => { m with cpu := { m.cpu with memory := m.cpu.memory.writeAt addr w } }
  | .own (.control index) => { m with cpu := m.cpu.writeControl m.cpu.id index w }
  | .peer number place =>
    match m.cpu.peer? number with
    | none => m
    | some slot => { m with bank := m.bank.write m.cpu.id slot place w }

/-- The source value of an instruction, and the machine behind the access to it. -/
def sourceValue (m : Machine) (i : Inst) : Word × Machine :=
  let imm := Word.ofInt i.srcImm
  match i.src with
  | .pc => (m.cpu.regs.pc + imm, m)
  | .mem r => m.read (m.cpu.regs.get r + imm)
  | .imm => (imm, m)
  | .reg r => (m.cpu.regs.get r + imm, m)

/-- The present value of an instruction's destination, and the machine behind the access to it. -/
def destinationValue (m : Machine) (i : Inst) : Word × Machine :=
  match i.dst with
  | .pc => (m.cpu.regs.pc, m)
  | .mem r => m.read (m.cpu.regs.get r + Word.ofInt i.dstImm)
  | .control => (m.cpu.regs.control, m)
  | .reg r => (m.cpu.regs.get r, m)

/-- Whether a jump to `target` by an instruction at `pc` can be taken for ever. -/
def isEndless (i : Inst) (pc target : Word) : Bool :=
  target == pc && i.effect == .always && !i.src.isMem

/-- The machine behind the store of an instruction's result. -/
def store (m : Machine) (i : Inst) (w : Word) : Machine :=
  match i.dst with
  | .pc =>
    let m := if isEndless i m.cpu.regs.pc w then m.withState .halted else m
    m.withRegs { m.cpu.regs with pc := w }
  | .mem r =>
    let m := if i.push then m.withRegs (m.cpu.regs.set r (m.cpu.regs.get r - 1)) else m
    m.write (m.cpu.regs.get r + Word.ofInt i.dstImm) w
  | .control => m.withRegs { m.cpu.regs with control := w }
  | .reg r => m.withRegs (m.cpu.regs.set r w)

/-- The machine after the pointer of a pop has moved. -/
def movePointer (m : Machine) (i : Inst) : Machine :=
  match i.src with
  | .mem r => if i.isPop then m.withRegs (m.cpu.regs.set r (m.cpu.regs.get r + 1)) else m
  | _ => m

/-- The machine with the program counter on the next instruction. -/
def advance (m : Machine) : Machine :=
  m.withRegs { m.cpu.regs with pc := m.cpu.regs.pc + 1 }

/-- The machine after an instruction has got its result, with the flags that decide whether it is
stored. -/
def finish (m : Machine) (i : Inst) (w : Word) (flags : Flags) : Machine :=
  if i.effect.commits i.cls flags then
    let m := (m.store i w).movePointer i
    if i.dst = .pc then m else m.advance
  else m.advance

/-- The machine behind an instruction. -/
def exec (m : Machine) (i : Inst) : Machine :=
  let (a, m) := m.sourceValue i
  match i.opcode with
  | .copy => m.finish i a m.cpu.regs.flags
  | .compute op =>
    let (b, m) := m.destinationValue i
    let result := Alu.eval op a b m.cpu.regs.overflow m.cpu.regs.isSigned
    let regs := { m.cpu.regs with flags := result.flags, overflow := result.spill }
    (m.withRegs regs).finish i result.val result.flags

/-- The machine with one more instruction counted. -/
def count (m : Machine) : Machine :=
  { m with cpu := { m.cpu with instructions := m.cpu.instructions + 1 } }

/-- The machine behind one step of its processor. -/
def step (m : Machine) : Machine :=
  if m.isRunning then
    match m.cpu.memory.readAt m.cpu.regs.pc with
    | none => m.abort (.fetch m.cpu.regs.pc)
    | some w =>
      let i := Inst.decode w
      if i.isHalt then m.count.withState .halted else m.count.exec i
  else m

/-- The machine behind at most so many steps, which end where the processor stops. -/
def run : Nat → Machine → Machine
  | 0, m => m
  | n + 1, m => if m.isRunning then run n m.step else m

/-- The limit of a run that has none. Instructions are counted in 64 bits, and no run goes on beyond
what can be counted. -/
def unlimited : Nat := UInt64.size

theorem isRunning_iff {m : Machine} :
    m.isRunning = true ↔ m.cpu.state = .running ∧ m.bank.hasFailed = false := by
  rw [isRunning]
  cases m.cpu.state <;> simp

theorem step_of_not_running {m : Machine} (h : m.isRunning = false) : m.step = m := by
  simp [step, h]

theorem run_of_not_running {m : Machine} (h : m.isRunning = false) (n : Nat) : run n m = m := by
  cases n <;> simp [run, h]

theorem run_succ (n : Nat) (m : Machine) : run (n + 1) m = run n m.step := by
  rw [run]
  split
  · rfl
  · next h =>
    have h : m.isRunning = false := by simpa using h
    rw [step_of_not_running h, run_of_not_running h]

theorem run_add (n k : Nat) (m : Machine) : run (n + k) m = run k (run n m) := by
  induction n generalizing m with
  | zero => simp [run]
  | succ n ih => rw [Nat.succ_add, run_succ, ih, run_succ]

/-! ### The count of instructions -/

@[simp] theorem instructions_read (m : Machine) (addr : Word) :
    (m.read addr).2.cpu.instructions = m.cpu.instructions := by
  rw [read]
  split
  · rfl
  · rfl
  · split <;> rfl

@[simp] theorem instructions_write (m : Machine) (addr w : Word) :
    (m.write addr w).cpu.instructions = m.cpu.instructions := by
  rw [write]
  split
  · rfl
  · exact Processor.instructions_writeControl _ _ _ _
  · split <;> rfl

@[simp] theorem instructions_sourceValue (m : Machine) (i : Inst) :
    (m.sourceValue i).2.cpu.instructions = m.cpu.instructions := by
  rw [sourceValue]
  split
  · rfl
  · exact instructions_read m _
  · rfl
  · rfl

@[simp] theorem instructions_destinationValue (m : Machine) (i : Inst) :
    (m.destinationValue i).2.cpu.instructions = m.cpu.instructions := by
  rw [destinationValue]
  split
  · rfl
  · exact instructions_read m _
  · rfl
  · rfl

@[simp] theorem instructions_store (m : Machine) (i : Inst) (w : Word) :
    (m.store i w).cpu.instructions = m.cpu.instructions := by
  rw [store]
  split
  · dsimp only
    split <;> rfl
  · dsimp only
    rw [instructions_write]
    split <;> rfl
  · rfl
  · rfl

@[simp] theorem instructions_finish (m : Machine) (i : Inst) (w : Word) (flags : Flags) :
    (m.finish i w flags).cpu.instructions = m.cpu.instructions := by
  have hmove (m : Machine) : (m.movePointer i).cpu.instructions = m.cpu.instructions := by
    rw [movePointer]
    split
    · split <;> rfl
    · rfl
  have hstored : ((m.store i w).movePointer i).cpu.instructions = m.cpu.instructions :=
    (hmove _).trans (instructions_store m i w)
  rw [finish]
  split
  · dsimp only
    split
    · exact hstored
    · exact hstored
  · rfl

theorem instructions_exec (m : Machine) (i : Inst) :
    (m.exec i).cpu.instructions = m.cpu.instructions := by
  rw [exec]
  dsimp only
  split
  · rw [instructions_finish, instructions_sourceValue]
  · rw [instructions_finish]
    exact (instructions_destinationValue _ i).trans (instructions_sourceValue m i)

/-- A step counts as one instruction unless it finds nothing to fetch. -/
theorem instructions_step (m : Machine) :
    m.step.cpu.instructions =
      if m.isRunning = true ∧ (m.cpu.memory.readAt m.cpu.regs.pc).isSome then
        m.cpu.instructions + 1
      else m.cpu.instructions := by
  rw [step]
  cases m.isRunning with
  | false => rfl
  | true =>
    cases m.cpu.memory.readAt m.cpu.regs.pc with
    | none => rfl
    | some w =>
      simp only [if_true, Option.isSome_some, and_self]
      split
      · rfl
      · exact instructions_exec m.count _

theorem isRunning_of_step {m : Machine} (h : m.step.isRunning = true) : m.isRunning = true := by
  cases hm : m.isRunning with
  | true => rfl
  | false =>
    rw [step_of_not_running hm, hm] at h
    exact h

/-- A step that leaves the processor at work has counted. -/
theorem instructions_step_of_running {m : Machine} (h : m.step.isRunning = true) :
    m.step.cpu.instructions = m.cpu.instructions + 1 := by
  have hm := isRunning_of_step h
  cases hfetch : m.cpu.memory.readAt m.cpu.regs.pc with
  | none =>
    rw [step, hm, hfetch] at h
    cases h
  | some w => rw [instructions_step, if_pos ⟨hm, by rw [hfetch]; rfl⟩]

/-- A run that leaves the processor at work has used up its limit. -/
theorem instructions_run_of_running {n : Nat} {m : Machine} (h : (run n m).isRunning = true) :
    (run n m).cpu.instructions = m.cpu.instructions + n := by
  induction n generalizing m with
  | zero => rfl
  | succ n ih =>
    rw [run_succ] at h ⊢
    have hstep : m.step.isRunning = true := by
      cases hm : m.step.isRunning with
      | true => rfl
      | false =>
        rw [run_of_not_running hm, hm] at h
        exact h
    rw [ih h, instructions_step_of_running hstep]
    omega

/-! ### The loop that compares the count -/

/-- A step with its answer, the state that the processor is in then. -/
def stepped (m : Machine) : RunState × Machine := (m.step.cpu.state, m.step)

/-- Steps that are taken as long as the processor is at work and has counted fewer instructions than
the limit, of those behind the first `start`. The answer is that they came to the limit, or the
state that the processor has stopped in. -/
def loop (start limit : Nat) (m : Machine) : RunState × Machine :=
  if _hrunning : m.isRunning = true then
    if _hlimit : limit ≤ m.cpu.instructions - start then (.timeout, m)
    else loop start limit m.step
  else (m.cpu.state, m)
termination_by if m.isRunning = true then start + limit - m.cpu.instructions + 1 else 0
decreasing_by
  rw [if_pos _hrunning]
  split
  · next hstep =>
    rw [instructions_step_of_running hstep]
    omega
  · exact Nat.succ_pos _

/-- A run of so many instructions at most, with its answer. -/
def runFor (limit : Nat) (m : Machine) : RunState × Machine := loop m.cpu.instructions limit m

/-- What a run answers that ends with a machine. -/
def answer (m : Machine) : RunState := if m.isRunning = true then .timeout else m.cpu.state

/-- **The loop goes where so many steps lead as are left of its limit.** A step that does not count
is the last one, so the count is as good a measure as the number of steps. -/
theorem loop_eq (start limit : Nat) (m : Machine) (hstart : start ≤ m.cpu.instructions) :
    loop start limit m =
      ((run (start + limit - m.cpu.instructions) m).answer,
        run (start + limit - m.cpu.instructions) m) := by
  induction m using loop.induct start limit with
  | case1 m hrunning hlimit =>
    have hnone : start + limit - m.cpu.instructions = 0 := by omega
    rw [loop, dif_pos hrunning, dif_pos hlimit, hnone, run, answer, if_pos hrunning]
  | case2 m hrunning hlimit ih =>
    have hsome : start + limit - m.cpu.instructions
        = start + limit - (m.cpu.instructions + 1) + 1 := by omega
    have hcount : m.cpu.instructions ≤ m.step.cpu.instructions := by
      rw [instructions_step]
      split <;> omega
    rw [loop, dif_pos hrunning, dif_neg hlimit, ih (Nat.le_trans hstart hcount), hsome, run_succ]
    cases hstep : m.step.isRunning with
    | true => rw [instructions_step_of_running hstep]
    | false => rw [run_of_not_running hstep, run_of_not_running hstep]
  | case3 m hstopped =>
    have hstopped' : m.isRunning = false := Bool.eq_false_iff.mpr hstopped
    rw [loop, dif_neg hstopped, run_of_not_running hstopped', answer, if_neg hstopped]

/-- **A run is as many steps as its limit says**, as far as they go. -/
theorem runFor_eq (limit : Nat) (m : Machine) :
    m.runFor limit = ((run limit m).answer, run limit m) := by
  have hlimit : m.cpu.instructions + limit - m.cpu.instructions = limit := by omega
  rw [runFor, loop_eq _ _ _ (Nat.le_refl _), hlimit]

/-- A machine that stops at all stops within as many steps as it counts instructions, and one. -/
theorem exists_run_eq {n : Nat} {m : Machine} (h : (run n m).isRunning = false) :
    ∃ k, m.cpu.instructions + k ≤ (run n m).cpu.instructions + 1 ∧ run k m = run n m := by
  induction n generalizing m with
  | zero => exact ⟨0, Nat.le_succ _, rfl⟩
  | succ n ih =>
    rw [run_succ] at h ⊢
    cases hstep : m.step.isRunning with
    | false =>
      have hcount : m.cpu.instructions ≤ m.step.cpu.instructions := by
        rw [instructions_step]
        split <;> omega
      refine ⟨1, ?_, ?_⟩
      · rw [run_of_not_running hstep]
        omega
      · rw [run_succ, run, run_of_not_running hstep]
    | true =>
      obtain ⟨k, hk, hrun⟩ := ih h
      rw [instructions_step_of_running hstep] at hk
      exact ⟨k + 1, by omega, by rw [run_succ, hrun]⟩

/-- **A run without a limit ends where the processor stops**, if its instructions can be counted. -/
theorem run_unlimited {n : Nat} {m : Machine} (h : (run n m).isRunning = false)
    (hcount : (run n m).cpu.instructions < UInt64.size) : run unlimited m = run n m := by
  obtain ⟨k, hk, hrun⟩ := exists_run_eq h
  obtain ⟨rest, hrest⟩ := Nat.exists_eq_add_of_le (show k ≤ unlimited by rw [unlimited]; omega)
  rw [hrest, run_add, hrun, run_of_not_running h]

end Machine

namespace Bank

/-- The bank behind one step of the processor in a slot. -/
def step (b : Bank) (slot : Nat) : Bank :=
  match b.get? slot with
  | some (.processor cpu) =>
    let m : Machine := { cpu := cpu, bank := b.vacate slot }
    let m := m.step
    m.bank.put slot (.processor m.cpu)
  | _ => b

/-- The bank behind at most so many steps of the processor in a slot. -/
def run (b : Bank) (slot limit : Nat) : Bank :=
  match b.get? slot with
  | some (.processor cpu) =>
    let m : Machine := { cpu := cpu, bank := b.vacate slot }
    let m := Machine.run limit m
    m.bank.put slot (.processor m.cpu)
  | _ => b

/-- The same run with its answer, if there is a processor. -/
def runFor (b : Bank) (slot limit : Nat) : Option RunState × Bank :=
  match b.get? slot with
  | some (.processor cpu) =>
    let m : Machine := { cpu := cpu, bank := b.vacate slot }
    let (state, m) := m.runFor limit
    (some state, m.bank.put slot (.processor m.cpu))
  | _ => (none, b)

/-- The answer apart, the two runs are the same. -/
theorem snd_runFor (b : Bank) (slot limit : Nat) : (b.runFor slot limit).2 = b.run slot limit := by
  rw [runFor, run]
  split
  · dsimp only
    rw [Machine.runFor_eq]
  · rfl

end Bank

end WordMachine
