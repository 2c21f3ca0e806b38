import WordMachine.Proofs.Slots

/-!
# Read-only memory

The first pages of a memory are filled by loading and are read-only from then on. A store can come
to a memory by several ways: from the processor's own program, whether it stores to an address or
pushes; from a controller, whose window begins at a page that it chooses itself; over the bank from
a processor of the same id, which is sent on. All of them end in `Memory.write`, which refuses
read-only pages. That it is so is what is to be proved, and the relation that is passed on along the
way is `Memory.KeepsRom`.

Nothing is asked of the bank. Devices may share ids, a processor may be among its own peers, and the
masks and registers may be anything at all. It does not matter either what a program writes, for
words are never looked at.

## Main results

* `Machine.keepsRom_step`: what a step leaves alone in its processor's own memory
* `Device.keepsRom_serve`: what a request leaves alone in the memory of a device
* `Bank.keepsRom_act`: what an event leaves alone on a bank, other than loading
* `Bank.rom_acts`: read-only memory does not change after it was loaded
-/

namespace WordMachine

namespace Memory

/-- What becomes of a memory that is not loaded again: it has its pages, and the read-only ones are
as they were. -/
structure KeepsRom (m n : Memory) : Prop where
  pages_eq : n.pages = m.pages
  rom_eq : n.rom = m.rom
  read_eq : ∀ page, page < m.rom → ∀ offset, n.read page offset = m.read page offset

namespace KeepsRom

variable {l m n : Memory}

theorem refl (m : Memory) : m.KeepsRom m := ⟨rfl, rfl, fun _ _ _ => rfl⟩

theorem of_eq (h : n = m) : m.KeepsRom n := h ▸ .refl m

theorem trans (h : l.KeepsRom m) (h' : m.KeepsRom n) : l.KeepsRom n where
  pages_eq := h'.pages_eq.trans h.pages_eq
  rom_eq := h'.rom_eq.trans h.rom_eq
  read_eq page hpage offset :=
    (h'.read_eq page (h.rom_eq ▸ hpage) offset).trans (h.read_eq page hpage offset)

end KeepsRom

/-- **Writes are refused where a page is read-only.** -/
theorem keepsRom_write (m : Memory) (page offset : Nat) (w : Word) :
    m.KeepsRom (m.write page offset w) := by
  refine ⟨pages_write .., rom_write .., fun p hp o => ?_⟩
  rw [read_write]
  refine if_neg ?_
  rintro ⟨hwritable, rfl, -⟩
  have hrom : m.isRom p = true := decide_eq_true hp
  simp [isWritable, hrom] at hwritable

end Memory

/-! ### A processor's own memory -/

namespace Machine

/-- The operands are only read. -/
@[simp] theorem memory_result (m : Machine) (i : Inst) :
    (m.result i).2.2.cpu.memory = m.cpu.memory := by
  have hsource := (m.reads_sourceValue i).memory_eq
  rw [result]
  cases i.opcode with
  | copy => exact hsource
  | compute op => exact (reads_destinationValue _ i).memory_eq.trans hsource

@[simp] theorem memory_movePointer (m : Machine) (i : Inst) :
    (m.movePointer i).cpu.memory = m.cpu.memory := by
  obtain ⟨regs, hregs⟩ := m.exists_movePointer_eq i
  rw [hregs]
  rfl

/-- A write may come to the processor's own memory, to its control words, or to a peer. -/
theorem keepsRom_write (m : Machine) (addr w : Word) :
    m.cpu.memory.KeepsRom (m.write addr w).cpu.memory := by
  rw [write]
  split
  · exact Memory.keepsRom_write ..
  · rw [Processor.writeControl_id]
    exact .refl _
  · split <;> exact .refl _

theorem keepsRom_store (m : Machine) (i : Inst) (w : Word) :
    m.cpu.memory.KeepsRom (m.store i w).cpu.memory := by
  rw [store]
  split
  · dsimp only
    split <;> exact .refl _
  · -- A push moves the pointer first, which is in a register.
    dsimp only
    refine .trans (.of_eq ?_) (keepsRom_write _ _ w)
    split <;> rfl
  · exact .refl _
  · exact .refl _

theorem keepsRom_exec (m : Machine) (i : Inst) :
    m.cpu.memory.KeepsRom (m.exec i).cpu.memory := by
  rw [exec_eq, finish, ← memory_result m i]
  split
  · have hstored := (keepsRom_store (m.result i).2.2 i (m.result i).1).trans
      (.of_eq (memory_movePointer _ i))
    dsimp only
    split <;> exact hstored
  · exact .refl _

/-- **What a step leaves alone in its processor's own memory.** -/
theorem keepsRom_step (m : Machine) : m.cpu.memory.KeepsRom m.step.cpu.memory := by
  rcases m.step_cases with ⟨-, hstep⟩ | ⟨-, -, hstep⟩ | ⟨w, -, -, -, hstep⟩ | ⟨w, -, -, -, hstep⟩
  all_goals rw [hstep]
  · exact .refl _
  · exact .refl _
  · exact .refl _
  · exact m.count.keepsRom_exec _

end Machine

/-! ### Devices that are asked -/

namespace Device

theorem memory_readControl (requester : Word) (index : Nat) (d : Device) :
    (d.readControl requester index).2.memory = d.memory := by
  cases d <;> rfl

/-- A processor that obeys its controller keeps its memory. -/
theorem memory_obey (p : Processor) (index : Nat) (w : Word) :
    (p.obey index w).memory = p.memory := by
  unfold Processor.obey
  split <;> rfl

theorem memory_writeControl (requester : Word) (index : Nat) (w : Word) (d : Device) :
    (d.writeControl requester index w).memory = d.memory := by
  cases d with
  | processor p =>
    change (p.writeControl requester index w).memory = _
    rw [Processor.writeControl]
    dsimp only
    split
    · exact memory_obey ..
    · rfl
  | block d => rfl

/-- Whatever page a requester's window shows, a write through it is a write to that page. -/
theorem keepsRom_writeMemory (requester addr w : Word) (d : Device) :
    d.memory.KeepsRom (d.writeMemory requester addr w).memory := by
  rw [writeMemory]
  split
  · rw [memory_mapMemory]
    exact Memory.keepsRom_write ..
  · exact .refl _

/-- **What a request leaves alone in the memory of a device.** -/
theorem keepsRom_serve (requester : Word) (request : Request) (d : Device) :
    d.memory.KeepsRom (d.serve requester request).memory := by
  rcases request with ⟨_, _ | index⟩ | ⟨_, addr | index, w⟩
  · exact .refl _
  · exact .of_eq (memory_readControl requester index d)
  · exact keepsRom_writeMemory requester addr w d
  · exact .of_eq (memory_writeControl requester index w d)

/-- Neither requests nor steps change what is read-only. -/
theorem isKept_keepsRom : IsKept fun d e => d.memory.KeepsRom e.memory where
  refl d := .refl d.memory
  trans := .trans
  serve := keepsRom_serve
  step m := m.keepsRom_step

end Device

/-! ### Banks -/

namespace Bank

/-- What becomes of a slot in which nothing is loaded: its device is still there, with its read-only
memory. -/
def KeepsRom (x y : Option Device) : Prop :=
  Option.Rel (fun d e : Device => d.memory.KeepsRom e.memory) x y

theorem keepsRom_attach (b : Bank) (k cpu device : Nat) :
    KeepsRom (b.get? k) ((b.attach cpu device).get? k) :=
  b.rel_attach Device.isKept_keepsRom k cpu device
    (fun d _ => .of_eq (Device.memory_withControl _ d)) fun _ _ => .refl _

/-- **What an event leaves alone** in a slot that it does not load into. -/
theorem keepsRom_act (b : Bank) {k : Nat} {event : Event} (h : event.loaded? ≠ some k) :
    KeepsRom (b.get? k) ((b.act event).get? k) :=
  b.rel_act Device.isKept_keepsRom k (fun hloaded => absurd hloaded h)
    fun cpu device _ => b.keepsRom_attach k cpu device

theorem keepsRom_acts (b : Bank) {k : Nat} {events : List Event}
    (h : ∀ event ∈ events, event.loaded? ≠ some k) :
    KeepsRom (b.get? k) ((b.acts events).get? k) :=
  b.rel_acts Device.isKept_keepsRom fun event hevent b => b.keepsRom_act (h event hevent)

/-- **Read-only memory does not change after it was loaded.** Take a device on any bank, and
whatever may then happen there, except that something is loaded into this device. It is still there,
with the pages that it had, as many of them read-only, and every word of those as it was. -/
theorem rom_acts {b : Bank} {k : Nat} {d : Device} (hd : b.get? k = some d) {events : List Event}
    (hevents : ∀ event ∈ events, event.loaded? ≠ some k) :
    ∃ e, (b.acts events).get? k = some e ∧ e.memory.pages = d.memory.pages ∧
      e.memory.rom = d.memory.rom ∧
      ∀ page, page < d.memory.rom → ∀ offset,
        e.memory.read page offset = d.memory.read page offset := by
  have hkeeps := b.keepsRom_acts hevents
  rw [hd] at hkeeps
  rcases he : (b.acts events).get? k with _ | e <;> rw [he] at hkeeps
  · cases hkeeps
  · cases hkeeps with
    | some h => exact ⟨e, rfl, h.pages_eq, h.rom_eq, h.read_eq⟩

/-- A program that stores to its own first word, moves a pointer behind it, and pushes a word there.
-/
def overwriting : List Word :=
  [⟨.copy, .imm, .mem .r1, 7, 0, .always, false⟩, ⟨.copy, .imm, .reg .r1, 1, 0, .always, false⟩,
    ⟨.copy, .imm, .mem .r1, 5, 0, .always, true⟩, Inst.halt].map Inst.encode

/-- In read-only memory the program overwrites nothing, and neither does a controller through its
window. -/
theorem rom_acts_overwriting :
    let b := (ofList [.processor (.new 1 2 1)]).act (.load 0 overwriting)
    let events : List Event :=
      [.run 0 10, .ask 2 (.write 0 (.control 3) 0), .ask 2 (.write 0 (.memory 0) 9)]
    ∃ d e, b.get? 0 = some d ∧ d.memory.rom = 1 ∧ d.memory.read 0 0 = overwriting[0]? ∧
      (b.acts events).get? 0 = some e ∧ e.control.bound = 2 ∧
      e.memory.read 0 0 = d.memory.read 0 0 := by
  intro b events
  have hloaded : (b.get? 0).map (fun d => (d.memory.rom, d.memory.read 0 0))
      = some (1, overwriting[0]?) := by
    decide +kernel
  have hbound : ((b.acts events).get? 0).map (fun e => e.control.bound) = some 2 := by
    decide +kernel
  obtain ⟨d, hd, hpair⟩ := Option.map_eq_some_iff.mp hloaded
  obtain ⟨hrom, hword⟩ := Prod.mk.inj hpair
  have hevents : ∀ event ∈ events, event.loaded? ≠ some 0 := by decide
  obtain ⟨e, he, -, -, hread⟩ := rom_acts hd hevents
  rw [he] at hbound
  exact ⟨d, e, hd, hrom, hword, he, Option.some.inj hbound, hread 0 (by omega) 0⟩

end Bank

end WordMachine
