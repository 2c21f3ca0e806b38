import WordMachine.Proofs.Slots

/-!
# Instructions that are not taken

The flags decide late whether an instruction is taken. Its operands have been read by then, over
whatever way their addresses lead, and a compute has set the flags and the spilled word already: it
is its own flags that decide. What is left out is all that comes behind the decision, the store, the
pointers and the halt.

So an instruction that is not taken does what reading does. A read of memory changes nothing. A read
of a control word may bring that word up to date, from the registers of a processor or from the
number of pages of a block, and this is all that a reader can do to a device
(`Device.IsRefreshed`), be it another or the processor itself.

## Main results

* `Device.isRefreshed_serve`: what a request to read does to a device
* `Machine.exists_result_eq`: what an instruction has done when the flags decide
* `Machine.exec_of_not_commits`: an instruction that is not taken takes its time and no more
-/

namespace WordMachine

/-! ### Control words that are brought up to date -/

/-- What becomes of control words that are only read. Each is as it was, or is what stands behind
it. -/
structure ControlBlock.IsRefreshed (live : Nat → Option Word) (c d : ControlBlock) : Prop where
  masks_eq : d.masks = c.masks
  get_eq : ∀ index, d.get index = c.get index ∨ live (index % 16) = some (d.get index)

namespace ControlBlock.IsRefreshed

variable {live : Nat → Option Word} {c d e : ControlBlock}

theorem refl (live : Nat → Option Word) (c : ControlBlock) : c.IsRefreshed live c :=
  ⟨rfl, fun _ => Or.inl rfl⟩

theorem trans (h : c.IsRefreshed live d) (h' : d.IsRefreshed live e) : c.IsRefreshed live e where
  masks_eq := h'.masks_eq.trans h.masks_eq
  get_eq index := by
    rcases h'.get_eq index with heq | hlive
    · rw [heq]
      exact h.get_eq index
    · exact Or.inr hlive

theorem read (live : Nat → Option Word) (c : ControlBlock) (requester : Word) (index : Nat) :
    c.IsRefreshed live (c.read requester index (live (index % 16))).2 := by
  cases hlive : live (index % 16) with
  | none =>
    rw [read_none]
    exact refl live c
  | some w =>
    rw [read_some]
    split
    · refine ⟨masks_set .., fun other => ?_⟩
      rw [get_set]
      split
      · next hindex => exact Or.inr (hindex ▸ hlive)
      · exact Or.inl rfl
    · exact refl live c

end ControlBlock.IsRefreshed

namespace Device

/-- What stands behind the control words of a device: the registers of a processor, and the number
of pages of a block. -/
def live? : Device → Nat → Option Word
  | processor p => p.live?
  | block d => d.live?

/-- What becomes of a device that is only read: it is as it was, up to control words. -/
structure IsRefreshed (d e : Device) : Prop where
  eq : e = d.withControl e.control
  control : d.control.IsRefreshed d.live? e.control

namespace IsRefreshed

variable {d e f : Device}

theorem withControl {control : ControlBlock} (h : d.control.IsRefreshed d.live? control) :
    d.IsRefreshed (d.withControl control) := by
  have hcontrol := control_withControl control d
  exact ⟨by rw [hcontrol], hcontrol.symm ▸ h⟩

theorem refl (d : Device) : d.IsRefreshed d :=
  ⟨by cases d <;> rfl, .refl _ _⟩

theorem trans (h : d.IsRefreshed e) (h' : e.IsRefreshed f) : d.IsRefreshed f := by
  have hlive : e.live? = d.live? := by
    rw [h.eq]
    cases d <;> rfl
  refine ⟨?_, h.control.trans (hlive ▸ h'.control)⟩
  rw [h'.eq, h.eq, control_withControl]
  cases d <;> rfl

/-- A processor that is only read, as a processor. -/
theorem processor_eq {p q : Processor} (h : IsRefreshed (.processor p) (.processor q)) :
    q = { p with control := q.control } :=
  processor.inj h.eq

end IsRefreshed

theorem isRefreshed_readControl (requester : Word) (index : Nat) (d : Device) :
    d.IsRefreshed (d.readControl requester index).2 := by
  cases d with
  | processor p => exact .withControl (d := .processor p) (.read p.live? p.control requester index)
  | block d => exact .withControl (d := .block d) (.read d.live? d.control requester index)

/-- **What a request to read does to a device.** -/
theorem isRefreshed_serve {request : Request} (h : request.isRead = true) (requester : Word)
    (d : Device) : d.IsRefreshed (d.serve requester request) := by
  rcases request with ⟨_, _ | index⟩ | _
  · exact .refl d
  · exact isRefreshed_readControl requester index d
  · cases h

end Device

theorem Request.isRead_redirect (slot : Nat) (place : Place) (request : Request) :
    (request.redirect slot place).isRead = request.isRead := by
  cases request <;> rfl

/-- Readers leave the devices of a bank as they are, up to control words. -/
theorem Bank.isRefreshed_foldl_serve (b : Bank) (k : Nat) (requester : Word)
    {requests : List Request} (h : ∀ request ∈ requests, request.isRead = true) :
    Option.Rel Device.IsRefreshed (b.get? k)
      ((requests.foldl (Bank.serve requester) b).get? k) :=
  b.rel_foldl_serve_of Device.IsRefreshed.refl (fun _ _ _ => .trans) k
    fun request hmem slot place => Device.isRefreshed_serve
      ((Request.isRead_redirect slot place request).trans (h request hmem)) requester

/-- A processor that reads, wherever that is, is at most read itself. -/
theorem Processor.Reads.isRefreshed {p q : Processor} (h : p.Reads q) :
    Device.IsRefreshed (.processor p) (.processor q) := by
  cases h with
  | elsewhere => exact .refl _
  | own index => exact Device.isRefreshed_readControl p.id index (.processor p)

namespace Machine

variable {m : Machine} {i : Inst}

/-! ### Before the flags decide -/

/-- What the arithmetic unit makes of the operands of a compute, which are read one after the other.
-/
def aluResult (m : Machine) (i : Inst) (op : AluOp) : AluResult :=
  Alu.eval op (m.sourceValue i).1 ((m.sourceValue i).2.destinationValue i).1
    m.cpu.regs.overflow m.cpu.regs.isSigned

/-- The flags that decide whether an instruction is taken: those that are there for a copy, and
those of its own result for a compute. -/
def decidingFlags (m : Machine) (i : Inst) : Flags :=
  match i.opcode with
  | .copy => m.cpu.regs.flags
  | .compute op => (m.aluResult i op).flags

/-- The registers when the flags decide. -/
def decidingRegs (m : Machine) (i : Inst) : Registers :=
  match i.opcode with
  | .copy => m.cpu.regs
  | .compute op =>
    { m.cpu.regs with flags := (m.aluResult i op).flags, overflow := (m.aluResult i op).spill }

theorem decidingRegs_of_copy (h : i.opcode = .copy) : m.decidingRegs i = m.cpu.regs := by
  rw [decidingRegs, h]

theorem decidingRegs_of_compute {op : AluOp} (h : i.opcode = .compute op) :
    m.decidingRegs i = { m.cpu.regs with
      flags := (m.aluResult i op).flags, overflow := (m.aluResult i op).spill } := by
  rw [decidingRegs, h]

/-- **What an instruction has done when the flags decide**: it has read its operands, and set the
flags and the spilled word if it is a compute. -/
theorem exists_result_eq (m : Machine) (i : Inst) :
    (m.result i).2.1 = m.decidingFlags i ∧
      ∃ p, Device.IsRefreshed (.processor m.cpu) (.processor p) ∧
        (m.result i).2.2.cpu = { p with regs := m.decidingRegs i } := by
  have hsource := (m.reads_sourceValue i).isRefreshed
  have hdestination := ((m.sourceValue i).2.reads_destinationValue i).isRefreshed
  have hregs : ((m.sourceValue i).2.destinationValue i).2.cpu.regs = m.cpu.regs := by
    rw [regs_destinationValue, regs_sourceValue]
  rw [result, decidingFlags]
  cases hopcode : i.opcode with
  | copy =>
    rw [decidingRegs_of_copy hopcode]
    refine ⟨congrArg Registers.flags (m.regs_sourceValue i), _, hsource, ?_⟩
    rw [← m.regs_sourceValue i]
  | compute op =>
    rw [decidingRegs_of_compute hopcode]
    refine ⟨?_, _, hsource.trans hdestination, ?_⟩
    all_goals simp only [aluResult, hregs]
    rfl

/-! ### Not taken -/

/-- An instruction that is not taken goes on to the next once its operands are read. -/
theorem exec_of_not_commits (h : i.effect.commits i.cls (m.decidingFlags i) = false) :
    m.exec i = (m.result i).2.2.advance := by
  rw [exec_eq, finish, (m.exists_result_eq i).1, h]
  rfl

/-- The processor behind an instruction that is not taken. -/
theorem exists_cpu_exec_eq (h : i.effect.commits i.cls (m.decidingFlags i) = false) :
    ∃ control, m.cpu.control.IsRefreshed m.cpu.live? control ∧
      (m.exec i).cpu = { m.cpu with
        control := control
        regs := { m.decidingRegs i with pc := m.cpu.regs.pc + 1 } } := by
  obtain ⟨-, p, hp, hresult⟩ := m.exists_result_eq i
  have hpc : (m.decidingRegs i).pc = m.cpu.regs.pc := by
    rw [decidingRegs]
    cases i.opcode <;> rfl
  refine ⟨p.control, hp.control, ?_⟩
  rw [exec_of_not_commits h, advance, withRegs, hresult, hp.processor_eq, hpc]

theorem bank_exec_of_not_commits (h : i.effect.commits i.cls (m.decidingFlags i) = false) :
    (m.exec i).bank = (m.operandRequests i).foldl (Bank.serve m.cpu.id) m.bank := by
  rw [exec_of_not_commits h]
  exact m.bank_result i

/-- **An instruction that is not taken takes its time and no more.** Take a processor and whatever
devices are on its bank, and any instruction that the flags which decide about it do not let
through. Behind it the general registers, the control register, the state and all of local memory
are as they were, and so is everything else about the processor, but that the program counter is one
further and that control words may have been brought up to date. Flags and the spilled word are
those of before for a copy, and those of its result for a compute. The devices on the bank are as
they were, but that control words of theirs may have been brought up to date as well. -/
theorem exec_suppressed (h : i.effect.commits i.cls (m.decidingFlags i) = false) :
    let after := m.exec i
    (∀ r, after.cpu.regs.get r = m.cpu.regs.get r) ∧
    after.cpu.regs.control = m.cpu.regs.control ∧
    after.cpu.state = m.cpu.state ∧
    after.cpu.memory = m.cpu.memory ∧
    after.cpu.regs.pc = m.cpu.regs.pc + 1 ∧
    (i.opcode = .copy →
      after.cpu.regs.flags = m.cpu.regs.flags ∧
        after.cpu.regs.overflow = m.cpu.regs.overflow) ∧
    (∀ op, i.opcode = .compute op →
      after.cpu.regs.flags = (m.aluResult i op).flags ∧
        after.cpu.regs.overflow = (m.aluResult i op).spill) ∧
    after.cpu = { m.cpu with control := after.cpu.control, regs := after.cpu.regs } ∧
    m.cpu.control.IsRefreshed m.cpu.live? after.cpu.control ∧
    ∀ k, Option.Rel Device.IsRefreshed (m.bank.get? k) (after.bank.get? k) := by
  intro after
  obtain ⟨control, hcontrol, hcpu⟩ := exists_cpu_exec_eq h
  have hregs : after.cpu.regs = { m.decidingRegs i with pc := m.cpu.regs.pc + 1 } := by rw [hcpu]
  refine ⟨fun r => ?_, ?_, by rw [hcpu], by rw [hcpu], by rw [hregs], fun hcopy => ?_,
    fun op hop => ?_, by rw [hcpu], by rwa [hcpu], fun k => ?_⟩
  · rw [hregs, decidingRegs]
    cases i.opcode <;> cases r <;> rfl
  · rw [hregs, decidingRegs]
    cases i.opcode <;> rfl
  · rw [hregs, decidingRegs_of_copy hcopy]
    exact ⟨rfl, rfl⟩
  · rw [hregs, decidingRegs_of_compute hop]
    exact ⟨rfl, rfl⟩
  · rw [bank_exec_of_not_commits h]
    exact m.bank.isRefreshed_foldl_serve k _ fun _ => isRead_of_mem_operandRequests

/-- A controller asks for a register of the processor that it holds, and does not take the answer.
The control word of the other has been brought up to date. -/
theorem exec_suppressed_asking :
    let held : Processor := { Processor.new 2 0 0 with
      control := (Processor.new 2 0 0).control.set 2 1
      regs := { r1 := 7 } }
    let m : Machine := {
      cpu := { Processor.new 1 0 0 with regs := { r1 := 0x18, control := 1 }, peers := [1] }
      bank := { slots := #[none, some (.processor held)] } }
    let i : Inst := ⟨.copy, .mem .r1, .reg .r2, 0, 0, .ifZero, false⟩
    i.effect.commits i.cls (m.decidingFlags i) = false ∧
      (m.exec i).cpu.regs.get .r2 = 0 ∧ (m.exec i).cpu.regs.pc = 1 ∧
      ∃ d, (m.exec i).bank.get? 1 = some d ∧ Device.IsRefreshed (.processor held) d ∧
        d.control.get 8 = 7 ∧ held.control.get 8 = 0 := by
  intro held m i
  have h : i.effect.commits i.cls (m.decidingFlags i) = false := rfl
  obtain ⟨hget, -, -, -, hpc, -, -, -, -, hdevices⟩ := exec_suppressed h
  have hbank : (m.exec i).bank.get? 1
      = some (.processor { held with control := held.control.set 8 7 }) := by decide +kernel
  obtain ⟨d, hd, hrefreshed⟩ := Bank.exists_right_of_rel (hdevices 1) rfl
  obtain rfl := Option.some.inj (hd.symm.trans hbank)
  exact ⟨h, hget .r2, hpc, _, hd, hrefreshed, by decide +kernel, by decide +kernel⟩

end Machine

end WordMachine
