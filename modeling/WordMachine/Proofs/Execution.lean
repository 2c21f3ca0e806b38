import WordMachine.Machine.Step

/-!
# Copies on a plain machine

A machine is *plain* here if its processor is at work and every address leads to a writable word of
its own memory. On such a machine an instruction that copies, and does so under every flag, is easy
to follow: it reads one value and stores it in one place. Three kinds of copy are all that a call is
made of. A move of a register onto itself makes room on a stack, a push puts a value there, and a
copy into the program counter is a jump.

The value that a copy reads is defined apart from its execution (`Machine.value`), because it is
read before any pointer moves. Pushing several values in a row is a machine of its own
(`Machine.pushAll`), so that its registers and its memory can be described once for any number of
pushes.

## Main results

* `Processor.peek_load`: where a loaded program is
* `Machine.step_push`, `Machine.step_move`, `Machine.step_jump`: one copy of each kind
* `Machine.peek_pushAll`: what memory holds after several pushes
* `Machine.Holds.of_peek_eq`: code that nothing has been written to is still there
-/

namespace WordMachine

/-! ### Words and integers -/

namespace Word

theorem ofInt_add (i j : Int) : ofInt (i + j) = ofInt i + ofInt j := by
  rw [← UInt16.toNat_inj, UInt16.toNat_add, toNat_ofInt, toNat_ofInt, toNat_ofInt]
  omega

theorem ofInt_natCast (n : Nat) : ofInt n = UInt16.ofNat n := by
  rw [← UInt16.toNat_inj, toNat_ofInt, UInt16.toNat_ofNat']
  omega

theorem ofInt_neg (i : Int) : ofInt (-i) = -ofInt i := by
  have h : ofInt (-i) + ofInt i = 0 := by
    rw [← ofInt_add, Int.add_left_neg]
    rfl
  grind

theorem ofInt_sub (i j : Int) : ofInt (i - j) = ofInt i - ofInt j := by
  rw [Int.sub_eq_add_neg, ofInt_add, ofInt_neg]
  grind

theorem add_ofNat_zero (w : Word) : w + UInt16.ofNat 0 = w := UInt16.add_zero w

theorem sub_ofNat_zero (w : Word) : w - UInt16.ofNat 0 = w := UInt16.sub_zero w

theorem add_ofNat_succ (w : Word) (n : Nat) :
    w + UInt16.ofNat (n + 1) = w + 1 + UInt16.ofNat n := by
  rw [UInt16.ofNat_add]
  grind

theorem sub_ofNat_succ (w : Word) (n : Nat) :
    w - UInt16.ofNat (n + 1) = w - 1 - UInt16.ofNat n := by
  rw [UInt16.ofNat_add]
  grind

theorem add_ofNat_add (w : Word) (n k : Nat) :
    w + UInt16.ofNat (n + k) = w + UInt16.ofNat n + UInt16.ofNat k := by
  rw [UInt16.ofNat_add]
  grind

theorem sub_ofNat_add (w : Word) (n k : Nat) :
    w - UInt16.ofNat (n + k) = w - UInt16.ofNat n - UInt16.ofNat k := by
  rw [UInt16.ofNat_add]
  grind

end Word

/-! ### Memory that fills the address space -/

namespace Memory

/-- Whether a memory has a writable word at every address. -/
structure IsFull (mem : Memory) : Prop where
  pages_eq : mem.pages = 256
  rom_eq : mem.rom = 0

variable {mem : Memory}

theorem IsFull.page_lt (h : mem.IsFull) (addr : Word) : Word.page addr < mem.pages := by
  rw [h.pages_eq]
  exact Word.page_lt addr

theorem IsFull.isWritable (h : mem.IsFull) (addr : Word) :
    mem.isWritable (Word.page addr) (Word.offset addr) = true := by
  have hoffset : Word.offset addr < 256 := Word.offset_lt addr
  simp [Memory.isWritable, isRom, h.page_lt addr, hoffset, h.rom_eq]

theorem IsFull.writeAt (h : mem.IsFull) (addr w : Word) : (mem.writeAt addr w).IsFull :=
  ⟨(pages_writeAt mem addr w).trans h.pages_eq, (rom_write mem _ _ w).trans h.rom_eq⟩

/-- An address is found in its page, and nowhere else. -/
theorem page_offset_inj {a b : Word} :
    Word.page a = Word.page b ∧ Word.offset a = Word.offset b ↔ a = b := by
  constructor
  · rintro ⟨hpage, hoffset⟩
    apply UInt16.toNat_inj.mp
    rw [← Word.page_mul_add_offset a, ← Word.page_mul_add_offset b, hpage, hoffset]
  · rintro rfl
    exact ⟨rfl, rfl⟩

/-- A write is seen at its own address and nowhere else. -/
theorem IsFull.readAt_writeAt (h : mem.IsFull) (addr other w : Word) :
    (mem.writeAt addr w).readAt other = if other = addr then some w else mem.readAt other := by
  rw [Memory.writeAt, readAt, read_write, h.isWritable addr]
  simp only [true_and, page_offset_inj]
  rfl

/-- Writes words downward, the first of them at an address. -/
def writeDown (mem : Memory) (top : Word) : List Word → Memory
  | [] => mem
  | w :: ws => (mem.writeAt top w).writeDown (top - 1) ws

theorem writeDown_append (mem : Memory) (top : Word) (us vs : List Word) :
    mem.writeDown top (us ++ vs) =
      (mem.writeDown top us).writeDown (top - UInt16.ofNat us.length) vs := by
  induction us generalizing mem top with
  | nil => simp [writeDown]
  | cons u us ih =>
    rw [List.cons_append, writeDown, ih, writeDown, List.length_cons, Word.sub_ofNat_succ]

theorem IsFull.writeDown (h : mem.IsFull) (top : Word) (ws : List Word) :
    (mem.writeDown top ws).IsFull := by
  induction ws generalizing mem top with
  | nil => exact h
  | cons w ws ih => exact ih (h.writeAt top w) (top - 1)

/-- Other addresses keep their words. -/
theorem IsFull.readAt_writeDown_of_ne (h : mem.IsFull) {top addr : Word} {ws : List Word}
    (hne : ∀ j < ws.length, addr ≠ top - UInt16.ofNat j) :
    (mem.writeDown top ws).readAt addr = mem.readAt addr := by
  induction ws generalizing mem top with
  | nil => rfl
  | cons w ws ih =>
    have hfirst : addr ≠ top := Word.sub_ofNat_zero top ▸ hne 0 (Nat.zero_lt_succ _)
    rw [Memory.writeDown, ih (h.writeAt top w), h.readAt_writeAt, if_neg hfirst]
    intro j hj
    exact Word.sub_ofNat_succ top j ▸ hne (j + 1) (Nat.succ_lt_succ hj)

/-- Each word is found as far below the first as it comes behind it. -/
theorem IsFull.readAt_writeDown (h : mem.IsFull) {top : Word} {ws : List Word}
    (hlen : ws.length ≤ 65536) {j : Nat} {w : Word} (hj : ws[j]? = some w) :
    (mem.writeDown top ws).readAt (top - UInt16.ofNat j) = some w := by
  induction ws generalizing mem top j with
  | nil => simp at hj
  | cons u us ih =>
    rw [List.length_cons] at hlen
    rw [Memory.writeDown]
    cases j with
    | zero =>
      obtain rfl := Option.some.inj hj
      rw [Word.sub_ofNat_zero, (h.writeAt top u).readAt_writeDown_of_ne, h.readAt_writeAt,
        if_pos rfl]
      intro k hk heq
      -- No more words are written than there are addresses.
      have hwrap : UInt16.ofNat (k + 1) = (0 : Word) := by
        rw [← Word.sub_ofNat_succ] at heq
        grind
      have hzero := congrArg UInt16.toNat hwrap
      rw [Word.toNat_ofNat_of_lt (by omega)] at hzero
      simp at hzero
    | succ j =>
      rw [Word.sub_ofNat_succ]
      exact ih (h.writeAt top u) (by omega) hj

end Memory

/-! ### Registers with a new pointer and a new program counter -/

namespace Registers

/-- A register and the program counter that get their own words are as they were. -/
theorem set_get_self (rs : Registers) (r : Reg) :
    { rs.set r (rs.get r) with pc := rs.pc } = rs := by
  cases r <;> rfl

theorem get_withPc (rs : Registers) (r : Reg) (pc : Word) :
    ({ rs with pc := pc } : Registers).get r = rs.get r := by
  cases r <;> rfl

/-- Of two changes to the same registers the last one counts. -/
theorem set_set_self (rs : Registers) (r : Reg) (v w p q : Word) :
    { ({ rs.set r v with pc := p } : Registers).set r w with pc := q }
      = { rs.set r w with pc := q } := by
  cases r <;> rfl

end Registers

/-! ### Loaded processors -/

namespace Processor

variable {id : Word} {rom : Nat} {ws : List Word} {cpu : Processor}

/-- Loading changes nothing but memory. -/
theorem load_eq_ok_iff : (new id 256 rom).load ws = .ok cpu ↔
    ∃ mem, (Memory.blank 256 rom).load 0 ws = .ok mem ∧
      cpu = { new id 256 rom with memory := mem } := by
  have hmemory : (new id 256 rom).memory = Memory.blank 256 rom := rfl
  rw [load, hmemory]
  rcases (Memory.blank 256 rom).load 0 ws with e | mem
  · simp [Except.map]
  · simp [Except.map, eq_comm]

/-- The address space has room for as many words as there are addresses. -/
theorem exists_load (id : Word) (rom : Nat) (h : ws.length ≤ 65536) :
    ∃ cpu, (new id 256 rom).load ws = .ok cpu := by
  have hcapacity : ws.length ≤ (Memory.blank 256 rom).capacity 0 := by
    rw [Memory.capacity, Memory.pages_blank]
    omega
  exact ⟨_, load_eq_ok_iff.mpr ⟨_, Memory.load_eq_ok_iff.mpr ⟨hcapacity, rfl⟩, rfl⟩⟩

/-- A loaded program is in memory from address 0 on, with zeros behind it. -/
theorem peek_load (h : (new id 256 rom).load ws = .ok cpu) (addr : Word) :
    cpu.peek addr = some (ws[addr.toNat]?.getD 0) := by
  have hplace : Word.page addr < 256 ∧ Word.offset addr < 256 :=
    ⟨Word.page_lt addr, Word.offset_lt addr⟩
  have haddr : 256 * (Word.page addr - 0) + Word.offset addr = addr.toNat := by
    rw [Nat.sub_zero, Nat.mul_comm]
    exact Word.page_mul_add_offset addr
  obtain ⟨mem, hload, rfl⟩ := load_eq_ok_iff.mp h
  change mem.read (Word.page addr) (Word.offset addr) = _
  rw [Memory.read_load hload, if_pos (Nat.zero_le _), Memory.read_blank, if_pos hplace, haddr]
  rfl

end Processor

namespace Machine

/-! ### Plain machines -/

/-- A machine whose processor is at work and has all addresses for its own memory. -/
structure IsPlain (m : Machine) : Prop where
  isRunning : m.isRunning = true
  memory : m.cpu.memory.IsFull
  control : m.cpu.regs.control = 0

variable {m : Machine}

/-- Without a bit in the control register every address leads to the processor's own memory. -/
theorem read_of_control_eq_zero (h : m.cpu.regs.control = 0) (addr : Word) :
    m.read addr = ((m.cpu.peek addr).getD 0, m) := by
  rw [Machine.read, Processor.route_of_control_eq_zero h]
  rfl

theorem write_of_control_eq_zero (h : m.cpu.regs.control = 0) (addr w : Word) :
    m.write addr w = { m with cpu := { m.cpu with memory := m.cpu.memory.writeAt addr w } } := by
  rw [Machine.write, Processor.route_of_control_eq_zero h]

theorem IsPlain.read (h : m.IsPlain) (addr : Word) :
    m.read addr = ((m.cpu.peek addr).getD 0, m) :=
  read_of_control_eq_zero h.control addr

theorem IsPlain.write (h : m.IsPlain) (addr w : Word) :
    m.write addr w = { m with cpu := { m.cpu with memory := m.cpu.memory.writeAt addr w } } :=
  write_of_control_eq_zero h.control addr w

/-- What an instruction reads from its source. -/
def value (m : Machine) (src : Source) (imm : Int) : Word :=
  match src with
  | .pc => m.cpu.regs.pc + Word.ofInt imm
  | .mem r => (m.cpu.peek (m.cpu.regs.get r + Word.ofInt imm)).getD 0
  | .imm => Word.ofInt imm
  | .reg r => m.cpu.regs.get r + Word.ofInt imm

/-- A copy that is always made has its source value and nothing else to store. Where the access to
the source leaves the machine as it is, that is all there is to it. -/
theorem exec_copy {i : Inst} (hcopy : i.opcode = .copy) (heffect : i.effect = .always) {v : Word}
    (hsource : m.sourceValue i = (v, m)) :
    m.exec i =
      let m' := (m.store i v).movePointer i
      if i.dst = .pc then m' else m'.advance := by
  have hcommits : i.effect.commits i.cls m.cpu.regs.flags = true := by
    rw [heffect]
    rfl
  simp only [exec, hsource, hcopy, finish, hcommits, if_true]

/-- A step that fetches another instruction than the one made for halting executes it. -/
theorem step_eq_exec {w : Word} (hrun : m.isRunning = true)
    (hfetch : m.cpu.peek m.cpu.regs.pc = some w) (hhalt : (Inst.decode w).isHalt = false) :
    m.step = m.count.exec (Inst.decode w) := by
  have hread : m.cpu.memory.readAt m.cpu.regs.pc = some w := hfetch
  rw [step, if_pos hrun, hread]
  simp [hhalt]

theorem step_copy (hrun : m.isRunning = true) {w : Word}
    (hfetch : m.cpu.peek m.cpu.regs.pc = some w)
    {i : Inst} (hdecode : Inst.decode w = i) (hcopy : i.opcode = .copy)
    (heffect : i.effect = .always) {v : Word} (hsource : m.count.sourceValue i = (v, m.count)) :
    m.step =
      let m' := (m.count.store i v).movePointer i
      if i.dst = .pc then m' else m'.advance := by
  have hhalt : (Inst.decode w).isHalt = false := by simp [hdecode, Inst.isHalt, hcopy]
  rw [step_eq_exec hrun hfetch hhalt, hdecode, exec_copy hcopy heffect hsource]

/-- A source outside of memory has its value on every machine. -/
theorem sourceValue_of_not_mem {i : Inst} (h : i.src.isMem = false) :
    m.sourceValue i = (m.value i.src i.srcImm, m) := by
  unfold sourceValue
  dsimp only
  cases hsrc : i.src with
  | mem r => simp [hsrc, Source.isMem] at h
  | _ => rfl

theorem sourceValue_of_control_eq_zero (h : m.cpu.regs.control = 0) (i : Inst) :
    m.sourceValue i = (m.value i.src i.srcImm, m) := by
  unfold sourceValue
  dsimp only
  cases i.src with
  | mem r => exact read_of_control_eq_zero h _
  | _ => rfl

theorem IsPlain.sourceValue_eq (h : m.IsPlain) (i : Inst) :
    m.sourceValue i = (m.value i.src i.srcImm, m) :=
  sourceValue_of_control_eq_zero h.control i

theorem IsPlain.step_copy (h : m.IsPlain) {w : Word} (hfetch : m.cpu.peek m.cpu.regs.pc = some w)
    {i : Inst} (hdecode : Inst.decode w = i) (hcopy : i.opcode = .copy)
    (heffect : i.effect = .always) :
    m.step =
      let m' := (m.count.store i (m.value i.src i.srcImm)).movePointer i
      if i.dst = .pc then m' else m'.advance := by
  have hcount : m.count.IsPlain := ⟨h.isRunning, h.memory, h.control⟩
  exact Machine.step_copy h.isRunning hfetch hdecode hcopy heffect (hcount.sourceValue_eq i)

/-! ### The three kinds of copy -/

/-- A machine after values have been pushed by as many instructions in a row. -/
def pushAll (m : Machine) (r : Reg) (vs : List Word) : Machine :=
  { m with cpu := { m.cpu with
      regs := { m.cpu.regs.set r (m.cpu.regs.get r - UInt16.ofNat vs.length) with
        pc := m.cpu.regs.pc + UInt16.ofNat vs.length }
      memory := m.cpu.memory.writeDown (m.cpu.regs.get r - 1) vs
      instructions := m.cpu.instructions + vs.length } }

/-- A machine after an instruction has put a value into a register. -/
def moveTo (m : Machine) (r : Reg) (v : Word) : Machine :=
  { m with cpu := { m.cpu with
      regs := { m.cpu.regs.set r v with pc := m.cpu.regs.pc + 1 }
      instructions := m.cpu.instructions + 1 } }

/-- A machine after a jump that is always taken. One that leads to itself halts the processor. -/
def jumpTo (m : Machine) (target : Word) : Machine :=
  { m with cpu := { m.cpu with
      regs := { m.cpu.regs with pc := target }
      state := if target = m.cpu.regs.pc then .halted else m.cpu.state
      instructions := m.cpu.instructions + 1 } }

section Steps

variable {w : Word} {i : Inst}

/-- What does not pop moves no pointer behind its store. -/
theorem movePointer_of_not_pop (m : Machine) (h : i.isPop = false) : m.movePointer i = m := by
  rw [movePointer]
  rw [h]
  cases i.src <;> rfl

/-- A copy that pushes moves the pointer and has its value stored where it leads then. -/
theorem exec_push (hcontrol : m.cpu.regs.control = 0) (hcopy : i.opcode = .copy)
    (heffect : i.effect = .always) {r : Reg} (hdst : i.dst = .mem r) (hpush : i.push = true)
    (himm : i.dstImm = 0) :
    m.exec i = { m with cpu := { m.cpu with
        regs := { m.cpu.regs.set r (m.cpu.regs.get r - 1) with pc := m.cpu.regs.pc + 1 }
        memory := m.cpu.memory.writeAt (m.cpu.regs.get r - 1) (m.value i.src i.srcImm) } } := by
  have hpop : i.isPop = false := by simp [Instruction.isPop, hdst, Destination.isMem]
  have hpc : i.dst ≠ .pc := by rw [hdst]; exact Destination.noConfusion
  have hmoved : (m.withRegs (m.cpu.regs.set r (m.cpu.regs.get r - 1))).cpu.regs.control = 0 :=
    (Registers.control_set _ _ _).trans hcontrol
  have hpointer : (m.cpu.regs.set r (m.cpu.regs.get r - 1)).get r + Word.ofInt 0
      = m.cpu.regs.get r - 1 := by
    rw [Registers.get_set, if_pos rfl]
    exact UInt16.add_zero _
  have hstore (v : Word) : m.store i v =
      { m with cpu := { m.cpu with
          regs := m.cpu.regs.set r (m.cpu.regs.get r - 1)
          memory := m.cpu.memory.writeAt (m.cpu.regs.get r - 1) v } } := by
    simp only [store, hdst, hpush, if_true, himm]
    refine (write_of_control_eq_zero hmoved _ v).trans ?_
    simp only [withRegs, hpointer]
  rw [exec_copy hcopy heffect (sourceValue_of_control_eq_zero hcontrol i), hstore]
  dsimp only
  rw [movePointer_of_not_pop _ hpop, if_neg hpc, advance, withRegs]
  dsimp only
  rw [Registers.pc_set]

theorem IsPlain.step_push (h : m.IsPlain) (hfetch : m.cpu.peek m.cpu.regs.pc = some w)
    (hdecode : Inst.decode w = i) (hcopy : i.opcode = .copy) (heffect : i.effect = .always)
    {r : Reg} (hdst : i.dst = .mem r) (hpush : i.push = true) (himm : i.dstImm = 0) :
    m.step = m.pushAll r [m.value i.src i.srcImm] := by
  have hhalt : (Inst.decode w).isHalt = false := by simp [hdecode, Inst.isHalt, hcopy]
  have hcount : m.count.cpu.regs.control = 0 := h.control
  rw [step_eq_exec h.isRunning hfetch hhalt, hdecode,
    exec_push hcount hcopy heffect hdst hpush himm]
  rfl

/-- A copy to a register has its value stored there. -/
theorem IsPlain.step_move (h : m.IsPlain) (hfetch : m.cpu.peek m.cpu.regs.pc = some w)
    (hdecode : Inst.decode w = i) (hcopy : i.opcode = .copy) (heffect : i.effect = .always)
    {r : Reg} (hdst : i.dst = .reg r) (hpush : i.push = false) :
    m.step = m.moveTo r (m.value i.src i.srcImm) := by
  have hpop : i.isPop = false := by simp [Instruction.isPop, hpush]
  have hpc : i.dst ≠ .pc := by rw [hdst]; exact Destination.noConfusion
  rw [h.step_copy hfetch hdecode hcopy heffect]
  dsimp only
  rw [movePointer_of_not_pop _ hpop, if_neg hpc]
  simp only [store, hdst, advance, withRegs, moveTo, count, Registers.pc_set]

/-- A copy to the program counter is a jump to its value. From a source outside of memory it is one
on every machine at work, whatever the addresses lead to. -/
theorem step_jump (hrun : m.isRunning = true) (hfetch : m.cpu.peek m.cpu.regs.pc = some w)
    (hdecode : Inst.decode w = i) (hcopy : i.opcode = .copy) (heffect : i.effect = .always)
    (hdst : i.dst = .pc) (hsrc : i.src.isMem = false) :
    m.step = m.jumpTo (m.value i.src i.srcImm) := by
  have hpop : i.isPop = false := by simp [Instruction.isPop, hsrc]
  have hendless (target : Word) :
      isEndless i m.cpu.regs.pc target = true ↔ target = m.cpu.regs.pc := by
    simp [isEndless, heffect, hsrc]
  have hsource : m.count.sourceValue i = (m.value i.src i.srcImm, m.count) :=
    sourceValue_of_not_mem hsrc
  rw [step_copy hrun hfetch hdecode hcopy heffect hsource]
  dsimp only
  rw [movePointer_of_not_pop _ hpop, if_pos hdst]
  simp only [store, hdst, count, hendless, jumpTo]
  split <;> rfl

end Steps

/-! ### Several pushes -/

theorem pushAll_nil (m : Machine) (r : Reg) : m.pushAll r [] = m := by
  have hregs : { m.cpu.regs.set r (m.cpu.regs.get r - 0) with pc := m.cpu.regs.pc + 0 }
      = m.cpu.regs := by
    rw [UInt16.sub_zero, UInt16.add_zero, Registers.set_get_self]
  exact congrArg (fun regs => { m with cpu := { m.cpu with regs := regs } }) hregs

/-- Pushes behind pushes are pushes of all the values. -/
theorem pushAll_append (m : Machine) (r : Reg) (us vs : List Word) :
    (m.pushAll r us).pushAll r vs = m.pushAll r (us ++ vs) := by
  have hget : (m.pushAll r us).cpu.regs.get r = m.cpu.regs.get r - UInt16.ofNat us.length := by
    cases r <;> rfl
  have hpointer : m.cpu.regs.get r - UInt16.ofNat us.length - UInt16.ofNat vs.length
      = m.cpu.regs.get r - UInt16.ofNat (us ++ vs).length := by
    rw [List.length_append, Word.sub_ofNat_add]
  have hpc : m.cpu.regs.pc + UInt16.ofNat us.length + UInt16.ofNat vs.length
      = m.cpu.regs.pc + UInt16.ofNat (us ++ vs).length := by
    rw [List.length_append, Word.add_ofNat_add]
  have htop : m.cpu.regs.get r - UInt16.ofNat us.length - 1
      = m.cpu.regs.get r - 1 - UInt16.ofNat us.length := by
    grind
  rw [pushAll, hget]
  unfold pushAll
  dsimp only
  rw [Registers.set_set_self, hpointer, hpc, htop, Memory.writeDown_append, Nat.add_assoc,
    List.length_append]

variable {r : Reg} {vs : List Word}

@[simp] theorem pc_pushAll :
    (m.pushAll r vs).cpu.regs.pc = m.cpu.regs.pc + UInt16.ofNat vs.length := rfl

theorem get_pushAll (s : Reg) :
    (m.pushAll r vs).cpu.regs.get s =
      if r = s then m.cpu.regs.get r - UInt16.ofNat vs.length else m.cpu.regs.get s := by
  cases r <;> cases s <;> rfl

theorem IsPlain.pushAll (h : m.IsPlain) : (m.pushAll r vs).IsPlain :=
  ⟨h.isRunning, h.memory.writeDown _ _, (Registers.control_set _ _ _).trans h.control⟩

theorem IsPlain.moveTo (h : m.IsPlain) {v : Word} : (m.moveTo r v).IsPlain :=
  ⟨h.isRunning, h.memory, (Registers.control_set _ _ _).trans h.control⟩

/-- What is not below the pointer is as it was before the pushes. -/
theorem IsPlain.peek_pushAll_of_ne (h : m.IsPlain) {addr : Word}
    (hne : ∀ j < vs.length, addr ≠ m.cpu.regs.get r - 1 - UInt16.ofNat j) :
    (m.pushAll r vs).cpu.peek addr = m.cpu.peek addr :=
  h.memory.readAt_writeDown_of_ne hne

/-- The values are found below the pointer, the last of them furthest down. -/
theorem IsPlain.peek_pushAll (h : m.IsPlain) (hlen : vs.length ≤ 65536) {j : Nat} {v : Word}
    (hj : vs[j]? = some v) :
    (m.pushAll r vs).cpu.peek (m.cpu.regs.get r - 1 - UInt16.ofNat j) = some v :=
  h.memory.readAt_writeDown hlen hj

/-! ### Code in memory -/

theorem run_one (m : Machine) : run 1 m = m.step := run_succ 0 m

/-- The words from an address on stand for instructions. -/
def Holds (m : Machine) (addr : Word) : List Inst → Prop
  | [] => True
  | i :: is => (∃ w, m.cpu.peek addr = some w ∧ Inst.decode w = i) ∧ m.Holds (addr + 1) is

/-- Code is still there on a machine with the same words at its addresses. -/
theorem Holds.of_peek_eq {m' : Machine} {addr : Word} {is : List Inst} (h : m.Holds addr is)
    (hpeek : ∀ j < is.length, m'.cpu.peek (addr + UInt16.ofNat j)
      = m.cpu.peek (addr + UInt16.ofNat j)) : m'.Holds addr is := by
  induction is generalizing addr with
  | nil => trivial
  | cons i is ih =>
    obtain ⟨⟨w, hw, hi⟩, hrest⟩ := h
    refine ⟨⟨w, ?_, hi⟩, ih hrest ?_⟩
    · have hfirst := hpeek 0 (Nat.zero_lt_succ _)
      rw [Word.add_ofNat_zero] at hfirst
      exact hfirst.trans hw
    · intro j hj
      exact Word.add_ofNat_succ addr j ▸ hpeek (j + 1) (Nat.succ_lt_succ hj)

theorem holds_append {addr : Word} {is js : List Inst} :
    m.Holds addr (is ++ js) ↔ m.Holds addr is ∧ m.Holds (addr + UInt16.ofNat is.length) js := by
  induction is generalizing addr with
  | nil => simp [Holds]
  | cons i is ih =>
    rw [List.cons_append, Holds, ih, Holds, List.length_cons, Word.add_ofNat_succ, and_assoc]

/-! ### Started machines -/

section Start

variable {ws : List Word}

/-- A started machine is a processor with the program loaded, and nothing beside it. -/
theorem start_eq_ok_iff : start ws = .ok m ↔
    ∃ cpu, (Processor.new 1 256 0).load ws = .ok cpu ∧ m = { cpu := cpu } := by
  rw [start, boot, Processor.defaultPages]
  rcases (Processor.new 1 256 0).load ws with e | cpu
  · simp [Except.map]
  · simp [Except.map, eq_comm]

theorem exists_start (h : ws.length ≤ 65536) : ∃ m, start ws = .ok m := by
  obtain ⟨cpu, hload⟩ := Processor.exists_load 1 0 h
  exact ⟨_, start_eq_ok_iff.mpr ⟨cpu, hload, rfl⟩⟩

theorem IsPlain.of_start (h : start ws = .ok m) : m.IsPlain := by
  obtain ⟨cpu, hload, rfl⟩ := start_eq_ok_iff.mp h
  obtain ⟨mem, hmem, rfl⟩ := Processor.load_eq_ok_iff.mp hload
  exact ⟨rfl, ⟨(Memory.pages_load hmem).trans (Memory.pages_blank 256 0), Memory.rom_load hmem⟩,
    rfl⟩

theorem regs_start (h : start ws = .ok m) : m.cpu.regs = {} := by
  obtain ⟨cpu, hload, rfl⟩ := start_eq_ok_iff.mp h
  obtain ⟨mem, -, rfl⟩ := Processor.load_eq_ok_iff.mp hload
  rfl

theorem peek_start (h : start ws = .ok m) (addr : Word) :
    m.cpu.peek addr = some (ws[addr.toNat]?.getD 0) := by
  obtain ⟨cpu, hload, rfl⟩ := start_eq_ok_iff.mp h
  exact Processor.peek_load hload addr

end Start

end Machine

end WordMachine
