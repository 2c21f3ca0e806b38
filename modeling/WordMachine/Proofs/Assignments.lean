import WordMachine.Proofs.Fidelity
import WordMachine.Proofs.Tracking

/-!
# Assignments

An assignment emits an operation and then gives a name to the place where the operation has stored
its result. If that place is in memory, the name is tracked through the pointer of the operation,
and the assembler has to know how far from the pointer the word will lie. The pointer may have moved
by then, but a push moves it before the word is stored, so that the distance is just the immediate
beside the destination (`Machine.get_exec_add_dstImm`).

An immediate is known to the assembler only if it was written as a number. One that refers to a
label has no number yet when the name is declared, and the name is then declared for the word at the
pointer itself. A copy from memory to memory is the only operation in which this can happen.

## Main results

* `Machine.IsPlain.memory_exec`: where an operation stores its result
* `Machine.get_exec_add_dstImm`: the pointer behind it
* `Context.assign_of_expand`: a line with an equals sign behind an alias is an assignment
* `Context.assigned_iff`: an assigned name stands for the word that was stored, exactly if the
  immediate beside the destination was written as a number or turns out to be zero
-/

namespace WordMachine

/-! ### Where an operation stores -/

namespace Machine

variable {m : Machine} {i : Inst} {r : Reg}

/-- The address at which an instruction stores its result if its destination is the memory that a
register points at. A push moves the register first. -/
def storeAddress (m : Machine) (i : Inst) (r : Reg) : Word :=
  (if i.push then m.cpu.regs.get r - 1 else m.cpu.regs.get r) + Word.ofInt i.dstImm

/-- The accesses to the operands change nothing on a plain machine, and a compute changes nothing
but the flags and the spilled word. -/
theorem IsPlain.result_eq (h : m.IsPlain) (i : Inst) :
    ∃ flags spill, (m.result i).2.2
      = m.withRegs { m.cpu.regs with flags := flags, overflow := spill } := by
  have hread : ∀ i : Inst, (m.destinationValue i).2 = m := by
    intro i
    rw [destinationValue]
    split
    · rfl
    · rw [h.read]
    · rfl
    · rfl
  rw [result, h.sourceValue_eq]
  cases i.opcode with
  | copy => exact ⟨m.cpu.regs.flags, m.cpu.regs.overflow, rfl⟩
  | compute op =>
    dsimp only
    rw [hread]
    exact ⟨_, _, rfl⟩

theorem IsPlain.memory_store (h : m.IsPlain) (hdst : i.dst = .mem r) (w : Word) :
    (m.store i w).cpu.memory = m.cpu.memory.writeAt (m.storeAddress i r) w := by
  rw [store, hdst, storeAddress]
  cases i.push with
  | false =>
    dsimp only
    rw [if_neg Bool.false_ne_true, if_neg Bool.false_ne_true, h.write]
  | true =>
    have hmoved : (m.withRegs (m.cpu.regs.set r (m.cpu.regs.get r - 1))).IsPlain :=
      ⟨h.isRunning, h.memory, by rw [regs_withRegs, Registers.control_set, h.control]⟩
    dsimp only
    rw [if_pos rfl, if_pos rfl, hmoved.write, regs_withRegs, Registers.get_set, if_pos rfl]
    rfl

/-- **Where an operation stores.** An instruction that is always taken and has memory for its
destination writes its result there, and writes nothing else to memory. -/
theorem IsPlain.memory_exec (h : m.IsPlain) (heffect : i.effect = .always)
    (hdst : i.dst = .mem r) :
    (m.exec i).cpu.memory = m.cpu.memory.writeAt (m.storeAddress i r) (m.result i).1 := by
  have hcommits : i.effect.commits i.cls (m.result i).2.1 = true := by
    rw [heffect]
    rfl
  have hpop : i.isPop = false := by simp [Instruction.isPop, hdst, Destination.isMem]
  obtain ⟨flags, spill, hresult⟩ := h.result_eq i
  have hplain : (m.result i).2.2.IsPlain := by
    rw [hresult]
    exact ⟨h.isRunning, h.memory, h.control⟩
  have haddr : (m.result i).2.2.storeAddress i r = m.storeAddress i r := by
    rw [hresult]
    cases r <;> rfl
  have hmemory : (m.result i).2.2.cpu.memory = m.cpu.memory := by
    rw [hresult]
    rfl
  rw [exec_eq, finish, if_pos hcommits, movePointer_of_not_pop _ hpop, hdst]
  refine (hplain.memory_store hdst _).trans ?_
  rw [haddr, hmemory]

/-- Behind an instruction that stores to memory, its pointer and the immediate beside the
destination lead to the word that was stored. -/
theorem get_exec_add_dstImm (m : Machine) (heffect : i.effect = .always) (hdst : i.dst = .mem r) :
    (m.exec i).cpu.regs.get r + Word.ofInt i.dstImm = m.storeAddress i r := by
  have hmoves : i.MovesOnly r := by
    intro hreg
    rw [hdst] at hreg
    cases hreg
  have hmovement : i.movement r = if i.push then -1 else 0 := by
    rw [Inst.movement_eq]
    cases hpush : i.push <;> simp [hdst, hpush, Instruction.isPop]
  rw [get_exec m heffect hmoves, hmovement, storeAddress]
  cases i.push with
  | false => exact congrArg (· + Word.ofInt i.dstImm) (UInt16.add_zero _)
  | true =>
    have hone : Word.ofInt (-1) = -1 := rfl
    rw [if_pos rfl, if_pos rfl, hone]
    grind

end Machine

/-- The immediate beside a destination is less than a word, so it is zero if its word is. -/
theorem Inst.Legal.ofInt_dstImm_eq_zero_iff {i : Inst} (h : i.Legal) :
    Word.ofInt i.dstImm = 0 ↔ i.dstImm = 0 := by
  have hmem := h.dstImm_mem
  have hrange : 0 ≤ i.dstImm ∧ i.dstImm ≤ 7 := by
    rw [Layout.destinationRange] at hmem
    cases hlayout : i.layout with
    | single width signed =>
      rw [hlayout] at hmem
      rw [Range.mem_zero.mp hmem]
      omega
    | split =>
      rw [hlayout] at hmem
      have h3 := Range.mem_ofBits_false.mp hmem
      have hpatterns : (Word.patterns 3 : Int) = 8 := rfl
      omega
  constructor
  · intro hword
    have hnat : (Word.ofInt i.dstImm).toNat = 0 := by rw [hword]; rfl
    rw [Word.toNat_ofInt] at hnat
    omega
  · intro hzero
    rw [hzero]
    rfl

namespace Assembly

/-! ### Where the assembler says it stores -/

/-- A name for memory is tracked at the offset that it is declared with. -/
theorem AliasTable.get?_bind_mem (t : AliasTable) (x : List Char) (r : Reg) (offset : Int) :
    (t.bind ('$' :: x) (.mem r) offset).get? ('$' :: x) = some (.tracked r offset) := by
  rw [bind, get?_insert, if_neg (by simp [refName]), get?_insert]
  exact if_pos rfl

namespace Context

variable {ctx next : Context} {name eq : Token} {rhs : List Token}
  {stmts : List (Located Statement)}

/-- An assignment names the destination of the operation that it comes to, once the aliases have
followed that operation. -/
theorem assign_eq_ok_iff :
    ctx.assign name rhs = (.ok stmts, next) ↔
      ∃ row stmt op mid, ctx.aliases.substitute rhs = .ok row ∧
        ctx.statement row = (.ok (some stmt), mid) ∧ stmt.val = .op op ∧ stmts = [stmt] ∧
        next = { mid with
          aliases := mid.aliases.bind name.val op.dst (op.dstImm.num?.getD 0) } := by
  constructor
  · intro h
    rw [assign] at h
    split at h
    · simp at h
    · next row hrow =>
      split at h
      · simp at h
      · simp at h
      · next stmt mid hstmt =>
        split at h
        · next op hop =>
          obtain ⟨hstmts, rfl⟩ := Prod.mk.inj h
          exact ⟨row, stmt, op, mid, hrow, hstmt, hop, (Except.ok.inj hstmts).symm, rfl⟩
        · simp at h
  · rintro ⟨row, stmt, op, mid, hrow, hstmt, hop, rfl, rfl⟩
    rw [assign, hrow]
    dsimp only
    rw [hstmt]
    dsimp only
    rw [hop]

/-- **A line with an equals sign behind an alias is an assignment**, if it comes to anything at all.
-/
theorem assign_of_expand (hname : Alias.isName name.val = true) (heq : eq.val = "=".toList)
    (h : ctx.expand (name :: eq :: rhs) = (.ok stmts, next)) (hne : stmts ≠ []) :
    ctx.assign name rhs = (.ok stmts, next) := by
  have harrowName : name.val ≠ Call.arrow := by
    intro hval
    rw [hval] at hname
    cases hname
  have harrowEq : eq.val ≠ Call.arrow := by
    rw [heq]
    decide
  have harrow := splitAt?_arrow_of_expand harrowName harrowEq h
  rcases hsplit : splitAt? "as".toList (name :: eq :: rhs) with _ | ⟨names, mark, operand⟩
  · rwa [expand_of_assignment harrow hname hsplit heq] at h
  · rw [expand_of_declaration harrow hname hsplit] at h
    split at h
    · simp at h
    · exact absurd (Except.ok.inj (Prod.mk.inj h).1).symm hne

/-- What an accepted assignment of an operation with a destination in memory leaves behind. -/
theorem exists_op_of_assign {x : List Char} (hname : name.val = '$' :: x)
    (h : ctx.assign name rhs = (.ok stmts, next)) {stmt : Located Statement} {op : Operation}
    (hstmts : stmts = [stmt]) (hop : stmt.val = .op op) {r : Reg} (hdst : op.dst = .mem r) :
    (Statement.op op).IsRead ∧
      next.aliases.get? name.val = some (.tracked r (op.dstImm.num?.getD 0)) := by
  obtain ⟨row, stmt', op', mid, -, hread, hop', hstmts', rfl⟩ := assign_eq_ok_iff.mp h
  obtain ⟨rfl, -⟩ := List.cons.inj (hstmts.symm.trans hstmts')
  obtain rfl := Statement.op.inj (hop.symm.trans hop')
  refine ⟨⟨ctx.scopes, row, mid.scopes, ?_⟩, ?_⟩
  · rw [readLine_of_statement hread, Option.map_some, hop]
  · rw [hname, hdst]
    exact AliasTable.get?_bind_mem ..

/-- **What an assigned name stands for.** Let an assignment come to an operation that is always
taken and stores to memory, and let its word be executed on a plain machine. Behind it the name is
tracked through the pointer of the destination. It stands for the word that was stored, exactly if
the immediate beside the destination was written as a number, or is a reference to a label that
turns out to be zero. -/
theorem assigned_iff {x : List Char} (hname : name.val = '$' :: x) (heq : eq.val = "=".toList)
    {stmt : Located Statement} (h : ctx.expand (name :: eq :: rhs) = (.ok [stmt], next))
    {op : Operation} (hop : stmt.val = .op op) (heffect : op.effect = .always) {r : Reg}
    (hdst : op.dst = .mem r) {labels : LabelMap} {address w : Word}
    (hencode : op.encode labels address = .ok w) {m : Machine} (hm : m.IsPlain) :
    next.aliases.get? name.val = some (.tracked r (op.dstImm.num?.getD 0)) ∧
      (m.exec (Inst.decode w)).cpu.memory
        = m.cpu.memory.writeAt (m.storeAddress (Inst.decode w) r) (m.result (Inst.decode w)).1 ∧
      ((m.exec (Inst.decode w)).cpu.regs.get r + Word.ofInt (op.dstImm.num?.getD 0)
          = m.storeAddress (Inst.decode w) r ↔
        (∃ k, op.dstImm = .num k) ∨ (Inst.decode w).dstImm = 0) := by
  have halias : Alias.isName name.val = true := by
    rw [hname]
    rfl
  have hassign := assign_of_expand halias heq h (List.cons_ne_nil _ _)
  obtain ⟨hread, hget⟩ := exists_op_of_assign hname hassign rfl hop hdst
  obtain ⟨cls, scopes, mnemonic, rest, hread⟩ := hread.readOperation
  have hreads := Operation.readsAs_of_encode hread hencode
  have heffect' : (Inst.decode w).effect = .always := hreads.effect_eq.trans heffect
  have hdst' : (Inst.decode w).dst = .mem r := hreads.dst_eq.trans hdst
  refine ⟨hget, hm.memory_exec heffect' hdst', ?_⟩
  rw [← Machine.get_exec_add_dstImm m heffect' hdst', UInt16.add_right_inj]
  have hdenotes := hreads.dstImm_denotes
  rcases himm : op.dstImm with k | ref <;> rw [himm] at hdenotes
  · have hk : (Inst.decode w).dstImm = k := hdenotes
    simp [Imm.num?, hk]
  · have hzero : Word.ofInt ((Imm.ref ref).num?.getD 0) = 0 := rfl
    rw [hzero, eq_comm, (Inst.legal_decode w).ofInt_dstImm_eq_zero_iff]
    simp

/-- The tokens of a line that assigns some words to `$x`. -/
def sampleAssignment (words : List (List Char)) : List Token :=
  ⟨⟨1, 1⟩, "$x".toList⟩ :: ⟨⟨1, 4⟩, "=".toList⟩ :: words.map fun t => ⟨⟨1, 6⟩, t⟩

/-- A push with a number beside its destination: the word goes below the pointer of before, and the
name is three words off the pointer behind it. -/
theorem assigned_iff_pushed : ∃ (next : Context) (op : Operation) (w : Word) (m : Machine),
    expand {} (sampleAssignment ["copy".toList, "2.mem".toList, "1.imm".toList, "1.mem".toList,
      "3.imm".toList, "push".toList]) = (.ok [⟨⟨1, 6⟩, .op op⟩], next) ∧
    op.effect = .always ∧ op.dst = .mem .r1 ∧ op.encode {} 0 = .ok w ∧ m.IsPlain ∧
    next.aliases.get? "$x".toList = some (.tracked .r1 3) ∧
    (m.exec (Inst.decode w)).cpu.memory
      = m.cpu.memory.writeAt (m.storeAddress (Inst.decode w) .r1) (m.result (Inst.decode w)).1 ∧
    (m.exec (Inst.decode w)).cpu.regs.get .r1 + 3 = m.storeAddress (Inst.decode w) .r1 := by
  obtain ⟨m, hm⟩ := @Machine.exists_start [] (by simp)
  have hplain := Machine.IsPlain.of_start hm
  have hexpand : expand {} (sampleAssignment ["copy".toList, "2.mem".toList, "1.imm".toList,
      "1.mem".toList, "3.imm".toList, "push".toList])
        = (.ok [⟨⟨1, 6⟩, .op ⟨.copy, .mem .r2, .mem .r1, .num 1, .num 3, .always, true⟩⟩],
          { aliases := AliasTable.bind {} "$x".toList (.mem .r1) 3 }) := rfl
  have hencode : Operation.encode ⟨.copy, .mem .r2, .mem .r1, .num 1, .num 3, .always, true⟩ {} 0
      = .ok 25931 := rfl
  obtain ⟨hget, hmemory, hiff⟩ := assigned_iff rfl rfl hexpand rfl rfl rfl hencode hplain
  exact ⟨_, _, 25931, m, hexpand, rfl, rfl, hencode, hplain, hget, hmemory,
    hiff.mpr (.inl ⟨3, rfl⟩)⟩

/-- **An assigned name need not stand for the word that was stored.** The copy beside a label at
address 1 stores to the word at that address, and the name stands for the word before it. -/
theorem exists_assigned_elsewhere :
    ∃ (next : Context) (op : Operation) (labels : LabelMap) (w : Word) (m : Machine),
      expand {} (sampleAssignment ["copy".toList, "1.mem".toList, "2.mem".toList,
        "here.imm".toList]) = (.ok [⟨⟨1, 6⟩, .op op⟩], next) ∧
      op.effect = .always ∧ op.dst = .mem .r2 ∧ op.encode labels 0 = .ok w ∧ m.IsPlain ∧
      (m.exec (Inst.decode w)).cpu.memory
        = m.cpu.memory.writeAt 1 (m.result (Inst.decode w)).1 ∧
      next.aliases.get? "$x".toList = some (.tracked .r2 0) ∧
      (m.exec (Inst.decode w)).cpu.regs.get .r2 + Word.ofInt 0 = 0 := by
  obtain ⟨m, hm⟩ := @Machine.exists_start [] (by simp)
  have hplain := Machine.IsPlain.of_start hm
  have haddr : m.storeAddress (Inst.decode 26753) .r2 = 1 := by
    rw [Machine.storeAddress, Machine.regs_start hm]
    decide
  refine ⟨{ aliases := AliasTable.bind {} "$x".toList (.mem .r2) 0 }, _,
    ({} : LabelMap).insert (.named "here".toList) 1, 26753, m, rfl, rfl, rfl, rfl, hplain, ?_,
    by decide, ?_⟩
  · rw [← haddr]
    exact hplain.memory_exec (by decide) (by decide)
  · have hpointer := Machine.get_exec_add_dstImm m (i := Inst.decode 26753) (r := .r2)
      (by decide) (by decide)
    have himm : Word.ofInt (Inst.decode 26753).dstImm = 1 := by decide
    rw [haddr, himm] at hpointer
    have hzero : Word.ofInt 0 = 0 := rfl
    rw [hzero]
    grind

end Context

end Assembly

end WordMachine
