import WordMachine.Machine.Step

/-!
# What an instruction leaves alone

An instruction goes through its parts one after another: it takes its operands, has a result, and
stores it. Whichever parts it has, only few things about its own processor can change on the way.
`Processor.Continues` lists what cannot, each part of an instruction continues the processor, and so
does the whole (`Machine.continues_exec`).

Memory of whatever kind may be read and written, the processor's own control words and other devices
among it. None of this comes back to the processor's registers.

## Main results

* `Machine.reads_sourceValue`, `Machine.reads_destinationValue`: what it is to take an operand
* `Machine.exec_eq`: an instruction is its result and what becomes of it
* `Machine.continues_exec`: what no instruction changes about its processor
* `Machine.continues_step`: what no step changes about it
-/

namespace WordMachine

namespace Processor

/-- What a processor that goes on keeps. Whether a write of its own may change who holds it is a
matter of the masks, which are asked for here. -/
structure Continues (p q : Processor) : Prop where
  id_eq : q.id = p.id
  masks_eq : q.control.masks = p.control.masks
  bound_eq : p.control.masks = masks → q.control.bound = p.control.bound
  peers_eq : q.peers = p.peers
  pages_eq : q.memory.pages = p.memory.pages
  fault_eq : q.fault = p.fault
  state_eq : q.state = p.state ∨ q.state = .halted

namespace Continues

variable {p q r : Processor}

theorem refl (p : Processor) : p.Continues p :=
  ⟨rfl, rfl, fun _ => rfl, rfl, rfl, rfl, Or.inl rfl⟩

theorem trans (h : p.Continues q) (h' : q.Continues r) : p.Continues r where
  id_eq := h'.id_eq.trans h.id_eq
  masks_eq := h'.masks_eq.trans h.masks_eq
  bound_eq hmasks := (h'.bound_eq (h.masks_eq.trans hmasks)).trans (h.bound_eq hmasks)
  peers_eq := h'.peers_eq.trans h.peers_eq
  pages_eq := h'.pages_eq.trans h.pages_eq
  fault_eq := h'.fault_eq.trans h.fault_eq
  state_eq := h'.state_eq.elim (fun heq => heq ▸ h.state_eq) Or.inr

end Continues

/-! ### A processor and its own control words -/

/-- Only words behind which there is a register are brought up to date. -/
theorem live?_eq_none {index : Nat} (h : index < 7) (p : Processor) : p.live? index = none := by
  unfold live?
  split <;> first | rfl | omega

theorem control_readControl (p : Processor) (requester : Word) (index : Nat) :
    (p.readControl requester index).2 =
      { p with control := (p.control.read requester index (p.live? (index % 16))).2 } := rfl

/-- A processor that reads a control word of its own goes on. -/
theorem continues_readControl (p : Processor) (requester : Word) (index : Nat) :
    p.Continues (p.readControl requester index).2 := by
  rw [control_readControl]
  cases hlive : p.live? (index % 16) with
  | none =>
    rw [ControlBlock.read_none]
    exact .refl p
  | some live =>
    rw [ControlBlock.read_some]
    split
    · have hindex : ¬ index % 16 < 7 := fun hlt => by simp [live?_eq_none hlt p] at hlive
      refine ⟨?_, rfl, fun _ => ?_, rfl, rfl, rfl, Or.inl rfl⟩
      · exact ControlBlock.id_set (by omega) p.control live
      · rw [ControlBlock.bound_set, if_neg (by omega)]
    · exact .refl p

/-- What becomes of a processor that reads a word, wherever that is: nothing, but that a control
word of its own may have been read. -/
inductive Reads (p : Processor) : Processor → Prop where
  | elsewhere : Reads p p
  | own (index : Nat) : Reads p (p.readControl p.id index).2

namespace Reads

variable {p q : Processor}

theorem regs_eq (h : p.Reads q) : q.regs = p.regs := by cases h <;> rfl

theorem memory_eq (h : p.Reads q) : q.memory = p.memory := by cases h <;> rfl

theorem state_eq (h : p.Reads q) : q.state = p.state := by cases h <;> rfl

theorem continues (h : p.Reads q) : p.Continues q := by
  cases h with
  | elsewhere => exact .refl p
  | own index => exact p.continues_readControl p.id index

end Reads

/-- A processor that writes to a control word of its own is not told to act on it. -/
theorem writeControl_id (p : Processor) (index : Nat) (w : Word) :
    p.writeControl p.id index w = { p with control := (p.control.write p.id index w).1 } := by
  have htold : (p.control.write p.id index w).2 = false := by
    rw [id, ControlBlock.write_own]
  rw [writeControl]
  dsimp only
  rw [htold]
  rfl

theorem allows_internalWrite {index : Nat} (h : index % 16 = 2) :
    AccessMasks.allows masks.internalWrite (index % 16) = false := by
  rw [h]
  rfl

theorem continues_writeControl (p : Processor) (index : Nat) (w : Word) :
    p.Continues (p.writeControl p.id index w) := by
  rw [writeControl_id]
  refine ⟨?_, ControlBlock.masks_write .., fun hmasks => ?_, rfl, rfl, rfl, Or.inl rfl⟩
  · exact ControlBlock.write_id ..
  · dsimp only
    rw [id, ControlBlock.write_own, hmasks]
    dsimp only
    split
    · next hallowed =>
      have hindex : index % 16 ≠ 2 := fun h => by simp [allows_internalWrite h] at hallowed
      rw [ControlBlock.bound_set, if_neg (by omega)]
    · rfl

end Processor

namespace Machine

variable {m : Machine} {i : Inst}

@[simp] theorem regs_withRegs (m : Machine) (regs : Registers) :
    (m.withRegs regs).cpu.regs = regs :=
  rfl

@[simp] theorem regs_withState (m : Machine) (state : RunState) :
    (m.withState state).cpu.regs = m.cpu.regs := rfl

@[simp] theorem regs_count (m : Machine) : m.count.cpu.regs = m.cpu.regs := rfl

@[simp] theorem regs_write (m : Machine) (addr w : Word) :
    (m.write addr w).cpu.regs = m.cpu.regs := by
  rw [write]
  split
  · rfl
  · rw [Processor.writeControl_id]
  · split <;> rfl

/-! ### The parts of an instruction -/

/-- A word is read from memory, from a control word, or from somebody else. -/
theorem reads_read (m : Machine) (addr : Word) : m.cpu.Reads (m.read addr).2.cpu := by
  rw [read]
  split
  · exact .elsewhere
  · exact .own _
  · split <;> exact .elsewhere

/-- To take an operand is to read a word, or none. -/
theorem reads_sourceValue (m : Machine) (i : Inst) : m.cpu.Reads (m.sourceValue i).2.cpu := by
  rw [sourceValue]
  split
  · exact .elsewhere
  · exact m.reads_read _
  · exact .elsewhere
  · exact .elsewhere

theorem reads_destinationValue (m : Machine) (i : Inst) :
    m.cpu.Reads (m.destinationValue i).2.cpu := by
  rw [destinationValue]
  split
  · exact .elsewhere
  · exact m.reads_read _
  · exact .elsewhere
  · exact .elsewhere

@[simp] theorem regs_sourceValue (m : Machine) (i : Inst) :
    (m.sourceValue i).2.cpu.regs = m.cpu.regs :=
  (m.reads_sourceValue i).regs_eq

@[simp] theorem regs_destinationValue (m : Machine) (i : Inst) :
    (m.destinationValue i).2.cpu.regs = m.cpu.regs :=
  (m.reads_destinationValue i).regs_eq

/-- The pointers are in registers. -/
theorem exists_movePointer_eq (m : Machine) (i : Inst) :
    ∃ regs, m.movePointer i = m.withRegs regs := by
  rw [movePointer]
  split
  · split
    · exact ⟨_, rfl⟩
    · exact ⟨m.cpu.regs, rfl⟩
  · exact ⟨m.cpu.regs, rfl⟩

theorem continues_withRegs (m : Machine) (regs : Registers) :
    m.cpu.Continues (m.withRegs regs).cpu :=
  ⟨rfl, rfl, fun _ => rfl, rfl, rfl, rfl, Or.inl rfl⟩

theorem continues_count (m : Machine) : m.cpu.Continues m.count.cpu :=
  ⟨rfl, rfl, fun _ => rfl, rfl, rfl, rfl, Or.inl rfl⟩

theorem continues_halt (m : Machine) : m.cpu.Continues (m.withState .halted).cpu :=
  ⟨rfl, rfl, fun _ => rfl, rfl, rfl, rfl, Or.inr rfl⟩

theorem continues_write (m : Machine) (addr w : Word) : m.cpu.Continues (m.write addr w).cpu := by
  rw [write]
  split
  · refine ⟨rfl, rfl, fun _ => rfl, rfl, ?_, rfl, Or.inl rfl⟩
    exact Memory.pages_writeAt ..
  · exact Processor.continues_writeControl ..
  · split <;> exact .refl _

/-- The result of an instruction, the flags that decide whether it is stored, and the machine behind
the accesses to the operands. -/
def result (m : Machine) (i : Inst) : Word × Flags × Machine :=
  let (a, m) := m.sourceValue i
  match i.opcode with
  | .copy => (a, m.cpu.regs.flags, m)
  | .compute op =>
    let (b, m) := m.destinationValue i
    let result := Alu.eval op a b m.cpu.regs.overflow m.cpu.regs.isSigned
    let regs := { m.cpu.regs with flags := result.flags, overflow := result.spill }
    (result.val, result.flags, m.withRegs regs)

/-- **An instruction is its result and what becomes of it.** -/
theorem exec_eq (m : Machine) (i : Inst) :
    m.exec i = (m.result i).2.2.finish i (m.result i).1 (m.result i).2.1 := by
  rw [exec, result]
  cases i.opcode <;> rfl

theorem continues_result (m : Machine) (i : Inst) : m.cpu.Continues (m.result i).2.2.cpu := by
  have hsource := (m.reads_sourceValue i).continues
  rw [result]
  cases i.opcode with
  | copy => exact hsource
  | compute op =>
    exact (hsource.trans (reads_destinationValue _ i).continues).trans (continues_withRegs _ _)

theorem continues_store (m : Machine) (i : Inst) (w : Word) :
    m.cpu.Continues (m.store i w).cpu := by
  rw [store]
  split
  · dsimp only
    split
    · exact m.continues_halt.trans (continues_withRegs _ _)
    · exact m.continues_withRegs _
  · dsimp only
    refine .trans ?_ (continues_write _ _ _)
    split
    · exact m.continues_withRegs _
    · exact .refl _
  · exact m.continues_withRegs _
  · exact m.continues_withRegs _

theorem continues_finish (m : Machine) (i : Inst) (w : Word) (flags : Flags) :
    m.cpu.Continues (m.finish i w flags).cpu := by
  have hmove (m : Machine) : m.cpu.Continues (m.movePointer i).cpu := by
    obtain ⟨regs, hregs⟩ := m.exists_movePointer_eq i
    rw [hregs]
    exact m.continues_withRegs regs
  rw [finish]
  split
  · have hstored := (m.continues_store i w).trans (hmove _)
    dsimp only
    split
    · exact hstored
    · exact hstored.trans (continues_withRegs _ _)
  · exact m.continues_withRegs _

/-- **What no instruction changes about its processor.** -/
theorem continues_exec (m : Machine) (i : Inst) : m.cpu.Continues (m.exec i).cpu := by
  rw [exec_eq]
  exact (m.continues_result i).trans (continues_finish _ _ _ _)

/-! ### Steps -/

/-- A step is one of four things: nothing on a processor that has stopped, an abort where there is
no word to fetch, a halt, or an instruction. -/
theorem step_cases (m : Machine) :
    (m.isRunning = false ∧ m.step = m) ∨
    (m.isRunning = true ∧ m.cpu.memory.readAt m.cpu.regs.pc = none ∧
      m.step = m.abort (.fetch m.cpu.regs.pc)) ∨
    (∃ w, m.isRunning = true ∧ m.cpu.memory.readAt m.cpu.regs.pc = some w ∧
      (Inst.decode w).isHalt = true ∧ m.step = m.count.withState .halted) ∨
    ∃ w, m.isRunning = true ∧ m.cpu.memory.readAt m.cpu.regs.pc = some w ∧
      (Inst.decode w).isHalt = false ∧ m.step = m.count.exec (Inst.decode w) := by
  rw [step]
  cases m.isRunning with
  | false => exact Or.inl ⟨rfl, rfl⟩
  | true =>
    cases m.cpu.memory.readAt m.cpu.regs.pc with
    | none => exact Or.inr (Or.inl ⟨rfl, rfl, rfl⟩)
    | some w =>
      right; right
      cases hhalt : (Inst.decode w).isHalt with
      | true => exact Or.inl ⟨w, rfl, rfl, hhalt, by simp [hhalt]⟩
      | false => exact Or.inr ⟨w, rfl, rfl, hhalt, by simp [hhalt]⟩

/-- **What no step changes about its processor**, unless it aborts it. -/
theorem continues_step (m : Machine) :
    m.cpu.Continues m.step.cpu ∨
      (m.isRunning = true ∧ m.cpu.memory.readAt m.cpu.regs.pc = none ∧
        m.step = m.abort (.fetch m.cpu.regs.pc)) := by
  rcases m.step_cases with ⟨-, hstep⟩ | habort | ⟨w, -, -, -, hstep⟩ | ⟨w, -, -, -, hstep⟩
  · left
    rw [hstep]
    exact .refl _
  · exact Or.inr habort
  · exact Or.inl (hstep ▸ m.continues_count.trans m.count.continues_halt)
  · exact Or.inl (hstep ▸ m.continues_count.trans (m.count.continues_exec _))

end Machine

end WordMachine
