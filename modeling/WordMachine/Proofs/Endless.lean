import WordMachine.Proofs.DoubleWidth
import WordMachine.Proofs.Steps

/-!
# Jumps to themselves

A processor halts at a jump to itself that is always taken and does not take its target from memory.
The thought is that nothing could ever lead it elsewhere, so that it would be stuck there anyway.
This file puts the thought to the test. The processor is set back to work and made to execute the
same jump over and over (`Machine.retake`).

Such a jump changes the flags and the spilled word, and no other register (`Registers.Resembles`).
It is taken under all flags. What the last result spilled is looked at by one operation only
(`Alu.eval_eq_of_ne`), the sum that takes it up, but that operation spills a word of its own. So a
jump of this one kind may lead elsewhere when it is taken again.

## Main results

* `Machine.state_exec`: where an instruction halts the processor
* `Machine.regs_exec_of_isJump`: the registers behind a jump
* `Machine.Alike.retake`: what stays the same however often a jump is taken
* `Machine.stuck_iff`: a processor that has halted at a jump would be stuck there, unless the jump
  adds what the last result spilled and spills another word
-/

namespace WordMachine

/-! ### What the arithmetic unit looks at -/

namespace Alu

/-- All other operations come to the same whatever was spilled before. -/
theorem eval_eq_of_ne {op : AluOp} (h : op ≠ .addc) (a b spill spill' : Word) (isSigned : Bool) :
    eval op a b spill isSigned = eval op a b spill' isSigned := by
  cases op with
  | addc => exact absurd rfl h
  | _ => rfl

end Alu

/-- An instruction is a jump that is taken under all flags and does not take its target from memory.
-/
structure Inst.IsJump (i : Inst) : Prop where
  dst_eq : i.dst = .pc
  effect_eq : i.effect = .always
  src_isMem : i.src.isMem = false

/-- Registers differ from others in the flags and the spilled word at most. -/
def Registers.Resembles (rs rs' : Registers) : Prop :=
  rs = { rs' with flags := rs.flags, overflow := rs.overflow }

namespace Registers.Resembles

variable {rs rs' rs'' : Registers}

theorem trans (h : rs.Resembles rs') (h' : rs'.Resembles rs'') : rs.Resembles rs'' := by
  rw [Resembles] at *
  rw [h, h']

theorem get_eq (h : rs.Resembles rs') (r : Reg) : rs.get r = rs'.get r := by
  rw [h]
  cases r <;> rfl

end Registers.Resembles

namespace Machine

variable {m m' : Machine} {i : Inst}

/-! ### Where a processor halts -/

@[simp] theorem state_write (m : Machine) (addr w : Word) :
    (m.write addr w).cpu.state = m.cpu.state := by
  rw [write]
  split
  · rfl
  · rw [Processor.writeControl_id]
  · split <;> rfl

theorem state_result (m : Machine) (i : Inst) : (m.result i).2.2.cpu.state = m.cpu.state := by
  have hsource := (m.reads_sourceValue i).state_eq
  rw [result]
  cases i.opcode with
  | copy => exact hsource
  | compute op => exact (reads_destinationValue _ i).state_eq.trans hsource

theorem pc_result (m : Machine) (i : Inst) : (m.result i).2.2.cpu.regs.pc = m.cpu.regs.pc := by
  rw [result]
  cases i.opcode with
  | copy => exact congrArg Registers.pc (regs_sourceValue m i)
  | compute op =>
    change ((m.sourceValue i).2.destinationValue i).2.cpu.regs.pc = m.cpu.regs.pc
    rw [regs_destinationValue, regs_sourceValue]

theorem isEndless_iff {pc target : Word} :
    isEndless i pc target = true ↔ target = pc ∧ i.effect = .always ∧ i.src.isMem = false := by
  simp [isEndless, and_assoc]

theorem state_store (m : Machine) (i : Inst) (w : Word) :
    (m.store i w).cpu.state =
      if i.dst = .pc ∧ isEndless i m.cpu.regs.pc w = true then .halted else m.cpu.state := by
  rw [store]
  cases i.dst with
  | pc =>
    dsimp only
    by_cases h : isEndless i m.cpu.regs.pc w = true <;> simp [h] <;> rfl
  | mem r =>
    dsimp only
    rw [state_write]
    cases i.push <;> rfl
  | control => rfl
  | reg r => rfl

theorem state_finish (m : Machine) (i : Inst) (w : Word) (flags : Flags) :
    (m.finish i w flags).cpu.state =
      if i.dst = .pc ∧ isEndless i m.cpu.regs.pc w = true then .halted else m.cpu.state := by
  have hmove (m : Machine) : (m.movePointer i).cpu.state = m.cpu.state := by
    obtain ⟨regs, hregs⟩ := m.exists_movePointer_eq i
    rw [hregs]
    rfl
  have hstored : ((m.store i w).movePointer i).cpu.state = _ :=
    (hmove _).trans (state_store m i w)
  rw [finish]
  split
  · dsimp only
    split
    · exact hstored
    · exact hstored
  · next hcommits =>
    -- What is always taken is also stored.
    rw [if_neg]
    · rfl
    · rintro ⟨-, hendless⟩
      rw [(isEndless_iff.mp hendless).2.1] at hcommits
      exact hcommits rfl

/-- **Where an instruction halts the processor.** It stores its own address in the program counter,
under all flags and not from memory. -/
theorem state_exec (m : Machine) (i : Inst) :
    (m.exec i).cpu.state =
      if i.dst = .pc ∧ isEndless i m.cpu.regs.pc (m.result i).1 = true then .halted
      else m.cpu.state := by
  rw [exec_eq, state_finish, pc_result, state_result]

/-! ### The registers behind a jump -/

/-- A jump takes its value from registers, and changes what a compute changes before it is stored.
-/
theorem result_of_isJump (m : Machine) (h : i.IsJump) :
    m.result i =
      match i.opcode with
      | .copy => (m.value i.src i.srcImm, m.cpu.regs.flags, m)
      | .compute op =>
        let result := Alu.eval op (m.value i.src i.srcImm) m.cpu.regs.pc m.cpu.regs.overflow
          m.cpu.regs.isSigned
        (result.val, result.flags,
          m.withRegs { m.cpu.regs with flags := result.flags, overflow := result.spill }) := by
  have hdestination : m.destinationValue i = (m.cpu.regs.pc, m) := by
    rw [destinationValue, h.dst_eq]
  rw [result, sourceValue_of_not_mem h.src_isMem]
  cases i.opcode <;> simp only [hdestination]

theorem regs_exec_of_isJump (m : Machine) (h : i.IsJump) :
    (m.exec i).cpu.regs = { (m.result i).2.2.cpu.regs with pc := (m.result i).1 } := by
  have hcommits (flags : Flags) : i.effect.commits i.cls flags = true := by
    rw [h.effect_eq]
    rfl
  have hpop : i.isPop = false := by simp [Instruction.isPop, h.src_isMem]
  rw [exec_eq, finish, if_pos (hcommits _), if_pos h.dst_eq, movePointer_of_not_pop _ hpop, store,
    h.dst_eq]
  dsimp only
  split <;> rfl

/-- A source outside of memory has one value under registers that resemble each other. -/
theorem value_eq_of_resembles (hsrc : i.src.isMem = false)
    (h : m'.cpu.regs.Resembles m.cpu.regs) (imm : Int) :
    m'.value i.src imm = m.value i.src imm := by
  have hpc : m'.cpu.regs.pc = m.cpu.regs.pc := by rw [h]
  rw [value.eq_def, value.eq_def]
  cases hcase : i.src with
  | pc => exact congrArg (· + Word.ofInt imm) hpc
  | mem r => simp [hcase, Source.isMem] at hsrc
  | imm => rfl
  | reg r => exact congrArg (· + Word.ofInt imm) (h.get_eq r)

/-- A jump to itself leaves registers that resemble those before it. -/
theorem resembles_exec (h : i.IsJump) (hself : (m.exec i).cpu.regs.pc = m.cpu.regs.pc) :
    (m.exec i).cpu.regs.Resembles m.cpu.regs := by
  rw [regs_exec_of_isJump m h] at hself ⊢
  rw [result_of_isJump m h] at hself ⊢
  cases hopcode : i.opcode <;>
  · rw [hopcode] at hself
    dsimp only at hself ⊢
    rw [hself]
    rfl

/-- A jump that adds what was spilled leads to the sum. -/
theorem pc_exec_addc (m : Machine) (h : i.IsJump) (hop : i.opcode = .compute .addc) :
    (m.exec i).cpu.regs.pc = m.value i.src i.srcImm + m.cpu.regs.overflow := by
  rw [regs_exec_of_isJump m h, result_of_isJump m h, hop]
  exact Alu.val_eval_addc _ m.cpu.regs.pc _ _

/-! ### Jumps that are taken again -/

/-- Two machines look alike to a jump: their registers resemble each other, and what was spilled is
the same if the jump adds it. -/
structure Alike (m' m : Machine) (i : Inst) : Prop where
  resembles : m'.cpu.regs.Resembles m.cpu.regs
  overflow_eq : i.opcode = .compute .addc → m'.cpu.regs.overflow = m.cpu.regs.overflow

/-- A jump leads to the same address from machines that look alike to it, and spills the same if it
will be added again. -/
theorem Alike.exec (h : m'.Alike m i) (hjump : i.IsJump) :
    (m'.exec i).cpu.regs.pc = (m.exec i).cpu.regs.pc ∧
      (i.opcode = .compute .addc →
        (m'.exec i).cpu.regs.overflow = (m.exec i).cpu.regs.overflow) := by
  have hvalue := value_eq_of_resembles hjump.src_isMem h.resembles i.srcImm
  have hpc : m'.cpu.regs.pc = m.cpu.regs.pc := by rw [h.resembles]
  have hsigned : m'.cpu.regs.isSigned = m.cpu.regs.isSigned := by
    rw [h.resembles]
    rfl
  rw [regs_exec_of_isJump m hjump, regs_exec_of_isJump m' hjump, result_of_isJump m hjump,
    result_of_isJump m' hjump, hvalue, hpc, hsigned]
  cases hopcode : i.opcode with
  | copy => exact ⟨rfl, nofun⟩
  | compute op =>
    have heval (v pc : Word) (isSigned : Bool) :
        Alu.eval op v pc m'.cpu.regs.overflow isSigned
          = Alu.eval op v pc m.cpu.regs.overflow isSigned := by
      by_cases hop : op = .addc
      · rw [h.overflow_eq (hop ▸ hopcode)]
      · exact Alu.eval_eq_of_ne hop ..
    dsimp only
    rw [heval]
    exact ⟨rfl, fun _ => rfl⟩

/-- The machine behind an instruction that is executed so many times, the processor being set back
to work each time. -/
def retake (i : Inst) : Nat → Machine → Machine
  | 0, m => m
  | n + 1, m => ((retake i n m).withState .running).exec i

/-- **However often a jump is taken again, all looks alike to it**, if it has led to itself once and
the machine looked alike to it then. -/
theorem Alike.retake (h : m'.Alike m i) (hjump : i.IsJump)
    (hself : (m.exec i).cpu.regs.pc = m.cpu.regs.pc)
    (hspill : i.opcode = .compute .addc →
      (m.exec i).cpu.regs.overflow = m.cpu.regs.overflow) (n : Nat) :
    (Machine.retake i n m').Alike m i := by
  induction n with
  | zero => exact h
  | succ n ih =>
    have hback : ((Machine.retake i n m').withState .running).Alike m i := ⟨ih.1, ih.2⟩
    obtain ⟨hpc, hoverflow⟩ := hback.exec hjump
    have hsame : (Machine.retake i n m').cpu.regs.pc = m.cpu.regs.pc := by rw [ih.resembles]
    refine ⟨.trans (resembles_exec hjump ?_) hback.resembles, fun hop => ?_⟩
    · rw [hpc, hself]
      exact hsame.symm
    · exact (hoverflow hop).trans (hspill hop)

/-- What halts a processor at work, other than the instruction made for it, is a jump to itself. -/
theorem halted_iff (hrun : m.cpu.state = .running) :
    (m.exec i).cpu.state = .halted ↔ i.IsJump ∧ (m.exec i).cpu.regs.pc = m.cpu.regs.pc := by
  have hpc (hjump : i.IsJump) : (m.exec i).cpu.regs.pc = (m.result i).1 := by
    rw [regs_exec_of_isJump m hjump]
  rw [state_exec, hrun]
  constructor
  · intro h
    split at h
    · next hstored =>
      obtain ⟨hdst, hendless⟩ := hstored
      obtain ⟨hself, heffect, hsrc⟩ := isEndless_iff.mp hendless
      have hjump : i.IsJump := ⟨hdst, heffect, hsrc⟩
      exact ⟨hjump, (hpc hjump).trans hself⟩
    · cases h
  · rintro ⟨hjump, hself⟩
    have htarget := (hpc hjump).symm.trans hself
    exact if_pos ⟨hjump.dst_eq, isEndless_iff.mpr ⟨htarget, hjump.effect_eq, hjump.src_isMem⟩⟩

/-- A jump that an instruction has halted at is stuck exactly if what was spilled stays what it is,
as far as the jump adds it. -/
theorem retake_exec_iff (hrun : m.cpu.state = .running) (hhalted : (m.exec i).cpu.state = .halted) :
    (∀ n, (retake i n (m.exec i)).cpu.regs.pc = m.cpu.regs.pc) ↔
      (i.opcode = .compute .addc → (m.exec i).cpu.regs.overflow = m.cpu.regs.overflow) := by
  obtain ⟨hjump, hself⟩ := (halted_iff hrun).mp hhalted
  have hresembles := resembles_exec hjump hself
  constructor
  · -- The second time decides: the other summand is what it was the first time.
    intro hstuck hop
    have hvalue : ((m.exec i).withState .running).value i.src i.srcImm = m.value i.src i.srcImm :=
      value_eq_of_resembles hjump.src_isMem hresembles i.srcImm
    have hsum : m.value i.src i.srcImm + (m.exec i).cpu.regs.overflow
        = m.value i.src i.srcImm + m.cpu.regs.overflow := by
      calc
        _ = (retake i 1 (m.exec i)).cpu.regs.pc := by
          rw [← hvalue]
          exact (pc_exec_addc _ hjump hop).symm
        _ = (m.exec i).cpu.regs.pc := (hstuck 1).trans hself.symm
        _ = _ := pc_exec_addc m hjump hop
    exact (UInt16.add_right_inj _).mp hsum
  · intro hspill n
    have halike : (m.exec i).Alike m i := ⟨hresembles, hspill⟩
    have hstuck := (halike.retake hjump hself hspill n).resembles
    rw [hstuck]

/-- **When a processor that has halted at a jump would be stuck there.** Let a step halt a processor
with another instruction than the one made for it. If the processor is set back to work, and made to
execute the instruction again and again, it stays at the same address for ever, unless the
instruction adds what the last result spilled and has itself spilled another word. -/
theorem stuck_iff {w : Word} (hrun : m.isRunning = true)
    (hfetch : m.cpu.peek m.cpu.regs.pc = some w) (hhalt : (Inst.decode w).isHalt = false)
    (hstep : m.step.cpu.state = .halted) :
    (∀ n, (retake (Inst.decode w) n m.step).cpu.regs.pc = m.cpu.regs.pc) ↔
      ((Inst.decode w).opcode = .compute .addc →
        m.step.cpu.regs.overflow = m.cpu.regs.overflow) := by
  rw [step_eq_exec hrun hfetch hhalt] at hstep ⊢
  have hcount : m.count.cpu.state = .running := (isRunning_iff.mp hrun).1
  exact retake_exec_iff hcount hstep

/-! ### Two jumps -/

/-- A jump that takes nothing from its own address. -/
def restingJump : Inst := ⟨.compute .sub, .imm, .pc, 0, 0, .always, false⟩

/-- A jump that takes two from what the last result spilled. -/
def carryingJump : Inst := ⟨.compute .addc, .imm, .pc, -2, 0, .always, false⟩

theorem isJump_restingJump : restingJump.IsJump := ⟨rfl, rfl, rfl⟩

theorem isJump_carryingJump : carryingJump.IsJump := ⟨rfl, rfl, rfl⟩

/-- A machine that is about to execute the word of an instruction at address 0, behind a result that
spilled a given word. -/
theorem exists_machine (w spill : Word) :
    ∃ m : Machine, m.isRunning = true ∧ m.cpu.regs = { overflow := spill } ∧
      m.cpu.peek m.cpu.regs.pc = some w := by
  obtain ⟨m, hm⟩ := @exists_start [w] (by simp)
  refine ⟨m.withRegs { overflow := spill }, (IsPlain.of_start hm).isRunning, rfl, ?_⟩
  exact peek_start hm 0

/-- The jump that takes nothing from its address would be stuck. It changes what was spilled, but
does not add it. -/
theorem stuck_iff_resting :
    ∃ (m : Machine) (w : Word), m.isRunning = true ∧ m.cpu.peek m.cpu.regs.pc = some w ∧
      (Inst.decode w).isHalt = false ∧ m.step.cpu.state = .halted ∧
      m.step.cpu.regs.overflow ≠ m.cpu.regs.overflow ∧
      ∀ n, (retake (Inst.decode w) n m.step).cpu.regs.pc = m.cpu.regs.pc := by
  obtain ⟨m, hrun, hregs, hfetch⟩ := exists_machine 57867 7
  have hdecode : Inst.decode 57867 = restingJump := by decide
  have hhalt : (Inst.decode 57867).isHalt = false := by decide
  have hcount : m.count.cpu.regs = { overflow := 7 } := hregs
  have hafter : (m.count.exec restingJump).cpu.regs
      = { flags := { zero := true }, overflow := 0 } := by
    rw [regs_exec_of_isJump _ isJump_restingJump, result_of_isJump _ isJump_restingJump]
    simp only [restingJump, value, regs_withRegs, hcount]
    decide
  have hstep : m.step.cpu.state = .halted := by
    rw [step_eq_exec hrun hfetch hhalt, hdecode,
      halted_iff (m := m.count) (isRunning_iff.mp hrun).1]
    refine ⟨isJump_restingJump, ?_⟩
    rw [hafter, hcount]
  refine ⟨m, 57867, hrun, hfetch, hhalt, hstep, ?_, ?_⟩
  · rw [step_eq_exec hrun hfetch hhalt, hdecode, hafter, hregs]
    decide
  · refine (stuck_iff hrun hfetch hhalt hstep).mpr fun hop => ?_
    rw [hdecode] at hop
    cases hop

/-- **A processor that has halted at a jump need not be stuck there.** The jump that takes two from
what was spilled leads to itself at address 0 if two were spilled. It spills one itself, and when it
is taken again it leads to the last address instead. -/
theorem exists_halted_not_stuck :
    ∃ (m : Machine) (w : Word), m.isRunning = true ∧ m.cpu.regs.control = 0 ∧
      m.cpu.peek m.cpu.regs.pc = some w ∧ (Inst.decode w).isHalt = false ∧
      m.step.cpu.state = .halted ∧ m.cpu.regs.pc = 0 ∧ m.step.cpu.regs.pc = 0 ∧
      (retake (Inst.decode w) 1 m.step).cpu.regs.pc = 65535 := by
  obtain ⟨m, hrun, hregs, hfetch⟩ := exists_machine 57967 2
  have hdecode : Inst.decode 57967 = carryingJump := by decide
  have hhalt : (Inst.decode 57967).isHalt = false := by decide
  have hcount : m.count.cpu.regs = { overflow := 2 } := hregs
  have hafter : (m.count.exec carryingJump).cpu.regs
      = { flags := { overflow := true, zero := true }, overflow := 1 } := by
    rw [regs_exec_of_isJump _ isJump_carryingJump, result_of_isJump _ isJump_carryingJump]
    simp only [carryingJump, value, regs_withRegs, hcount]
    decide
  have hstep : m.step = m.count.exec carryingJump := by
    rw [step_eq_exec hrun hfetch hhalt, hdecode]
  refine ⟨m, 57967, hrun, by rw [hregs], hfetch, hhalt, ?_, by rw [hregs], ?_, ?_⟩
  · rw [hstep, halted_iff (m := m.count) (isRunning_iff.mp hrun).1]
    refine ⟨isJump_carryingJump, ?_⟩
    rw [hafter, hcount]
  · rw [hstep, hafter]
  · rw [hdecode, hstep]
    refine (pc_exec_addc _ isJump_carryingJump rfl).trans ?_
    rw [regs_withState]
    change Word.ofInt (-2) + (m.count.exec carryingJump).cpu.regs.overflow = 65535
    rw [hafter]
    decide

end Machine

end WordMachine
