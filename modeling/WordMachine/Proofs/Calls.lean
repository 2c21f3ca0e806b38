import WordMachine.Proofs.CallLines
import WordMachine.Proofs.Reassembly

/-!
# Calls do what they say

The line of a call comes to the operations of the calling convention, their words decode to the
instructions of the convention, and a machine that executes these has called the label: the words
kept, the return address and the arguments are on the stack, and control is at the label. This file
puts the three together.

## Addresses

The operations are encoded at the addresses that follow one another from where the machine stands,
as the second pass would do it. Addresses may start again behind the last one, on the stack as well
as in the code. What is asked for is that the words pushed are neither code nor read by an argument.
It follows that there are fewer arguments than addresses, so that no number in a call is too large
to be read back, and no word that was pushed is pushed over.

## Main results

* `Call.encoded_holds`: the words of a call stand for the instructions of the convention
* `Machine.HasCalled`: what a call has to leave behind
* `hasCalled_of_expand`: executing the words of a call does leave that behind
-/

namespace WordMachine

namespace Assembly

/-- The word of an instruction with numbers for immediates is read as that instruction. -/
theorem Operation.decode_of_encode_asWritten {i : Inst} (hpush : i.push = true → i.hasMem = true)
    {labels : LabelMap} {address w : Word} (h : i.asWritten.encode labels address = .ok w) :
    Inst.decode w = i := by
  obtain ⟨src, dst, hsrc, -, hdst, -, hinst⟩ := toInst_eq_ok_iff.mp (toInst_of_encode hpush h)
  obtain rfl : src = i.srcImm := hsrc
  obtain rfl : dst = i.dstImm := hdst
  exact hinst

/-- The words of instructions with numbers for immediates stand for these instructions. -/
theorem Statement.holds_of_encodeFrom {m : Machine} {labels : LabelMap} {address : Nat} {p : Word}
    {is : List Inst} (hpush : ∀ i ∈ is, i.push = true → i.hasMem = true) {ws : List Word}
    (h : encodeFrom labels address (is.map fun i => .op i.asWritten) = .ok ws)
    (hmem : ∀ j w, ws[j]? = some w → m.cpu.peek (p + UInt16.ofNat j) = some w) : m.Holds p is := by
  induction is generalizing address p ws with
  | nil => trivial
  | cons i is ih =>
    obtain ⟨us, hus, vs, hvs, rfl⟩ := encodeFrom_cons_eq_ok_iff.mp h
    obtain ⟨w, hw, rfl⟩ := encode_op_eq_ok_iff.mp hus
    refine ⟨⟨w, ?_, ?_⟩, ?_⟩
    · have hfirst := hmem 0 w rfl
      rwa [Word.add_ofNat_zero] at hfirst
    · exact Operation.decode_of_encode_asWritten (hpush i List.mem_cons_self) hw
    · refine ih (fun k hk => hpush k (List.mem_cons_of_mem i hk)) hvs fun j v hv => ?_
      rw [← Word.add_ofNat_succ]
      exact hmem (j + 1) v hv

namespace Call

variable {ctx next : Context} {stmts : List (Located Statement)} {stack : Reg} {kept : Nat}
  {callee : List Char} {args : List Argument} {lhs arrow : Token} {rhs : List Token}

theorem dst_of_mem_pushInsts {moved : Nat} {i : Inst} (hi : i ∈ pushInsts stack moved args) :
    i.dst = .mem stack := by
  induction args generalizing moved with
  | nil => cases hi
  | cons arg rest ih =>
    rcases List.mem_cons.mp hi with rfl | hi
    · rfl
    · exact ih hi

/-- Every push of a call has a pointer to move. -/
theorem hasMem_of_mem_frameInsts {i : Inst} (hi : i ∈ frameInsts stack kept args)
    (hpush : i.push = true) : i.hasMem = true := by
  rcases List.mem_append.mp hi with hi | hi
  · rw [keepInsts] at hi
    split at hi
    · cases hi
    · obtain rfl := List.mem_singleton.mp hi
      cases hpush
  · have hdst : i.dst = .mem stack := by
      rcases List.mem_cons.mp hi with rfl | hi
      · rfl
      · exact dst_of_mem_pushInsts hi
    rw [Instruction.hasMem, hdst]
    exact Bool.or_true _

/-- A line of a call that comes to statements was read as a call, and its lines came to them. -/
theorem exists_of_expand (hwritten : IsWritten ctx.aliases stack kept callee args lhs arrow rhs)
    (h : ctx.expand (lhs :: arrow :: rhs) = (.ok stmts, next)) :
    ∃ c lines mid, Call.read? ctx.aliases [lhs] arrow rhs = .ok c ∧ c.lines = .ok lines ∧
      ctx.statements (lines.map fun line => line.map arrow.withVal) = (.ok stmts, mid) := by
  obtain ⟨c, lines, mid, hc, hlines, hstmts, -⟩ :=
    Context.call_eq_ok_iff.mp (Context.call_of_expand hwritten.arrow_val h)
  exact ⟨c, lines, mid, hc, hlines, hstmts⟩

/-- The first line of a call is a line of code. -/
theorem exists_lines_cons {c : Call} {lines : List (List (List Char))} (h : c.lines = .ok lines) :
    ∃ words rest, lines = (mnemonic .copy :: words) :: rest := by
  simp only [Call.lines, bind_eq_ok_iff, pure_eq_ok_iff] at h
  obtain ⟨pushes, -, rfl⟩ := h
  split
  · exact ⟨_, _, rfl⟩
  · exact ⟨_, _, rfl⟩

/-- The words of a call begin with the word of an operation. -/
theorem encodeFrom_ne_nil {c : Call} {lines : List (List (List Char))}
    (hlines : c.lines = .ok lines)
    (h : ctx.statements (lines.map fun line => line.map arrow.withVal) = (.ok stmts, next))
    {labels : LabelMap} {address : Nat} {ws : List Word}
    (hencode : Statement.encodeFrom labels address (stmts.map (·.val)) = .ok ws) : ws ≠ [] := by
  obtain ⟨words, rest, rfl⟩ := exists_lines_cons hlines
  obtain ⟨first, mid, others, hfirst, -, rfl⟩ := Context.statements_cons_eq_ok_iff.mp h
  obtain ⟨op, -, rfl, -⟩ := @Context.exists_op_of_statement _ _ .copy _ _ rfl _ hfirst
  obtain ⟨us, hus, vs, -, rfl⟩ := Statement.encodeFrom_cons_eq_ok_iff.mp hencode
  obtain ⟨w, -, rfl⟩ := Statement.encode_op_eq_ok_iff.mp hus
  exact List.cons_ne_nil w vs

/-- The statements of a call are the operations of the calling convention, and the jump. -/
theorem statements_written
    (hwritten : IsWritten ctx.aliases stack kept callee args lhs arrow rhs)
    (hargs : args.length ≤ 0xFFFF) (hnumeral : Numeral.read? callee = none)
    (hloop : callee ≠ "loop".toList) (hbreak : callee ≠ "break".toList)
    (h : ctx.expand (lhs :: arrow :: rhs) = (.ok stmts, next)) :
    stmts.map (·.val) = (frameInsts stack kept args).map (fun i => .op i.asWritten) ++
      [.op (jumpLine callee).operation] := by
  obtain ⟨c, lines, mid, hc, hlines, hstmts⟩ := exists_of_expand hwritten h
  obtain ⟨rfl, rfl, hkept, rfl, hspelled⟩ := read?_written hwritten hc
  obtain ⟨ls, rfl, hoperations, hmeant⟩ := lines_written hkept hargs hspelled hlines
  have hall : ∀ l ∈ ls ++ [jumpLine c.label], l.IsMeant ctx.scopes := by
    intro l hl
    rcases List.mem_append.mp hl with hl | hl
    · exact hmeant l hl ctx.scopes
    · obtain rfl := List.mem_singleton.mp hl
      exact isMeant_jumpLine hnumeral hloop hbreak ctx.scopes
  rw [List.map_map] at hstmts
  have hvals := congrArg (List.map Statement.op) hoperations
  rw [List.map_map, List.map_map] at hvals
  rw [Context.statements_copyLines hall hstmts, List.map_append]
  exact congrArg (· ++ [Statement.op (jumpLine c.label).operation]) hvals

/-- The word of the jump is read as the distance from it to the callee. -/
theorem decode_of_encode_jumpLine {labels : LabelMap} {target address w : Word}
    (htarget : labels[Label.named callee]? = some target)
    (h : (jumpLine callee).operation.encode labels address = .ok w) :
    Inst.decode w = jumpInst (target.toNat - address.toNat) := by
  have hpush : (jumpLine callee).operation.push = true →
      (jumpLine callee).operation.hasMem = true := by
    intro hpush
    cases hpush
  obtain ⟨src, dst, hsrc, -, hdst, -, hinst⟩ :=
    Operation.toInst_eq_ok_iff.mp (Operation.toInst_of_encode hpush h)
  obtain ⟨found, hfound, rfl⟩ := hsrc
  obtain rfl := Option.some.inj (htarget.symm.trans hfound)
  obtain rfl : dst = 0 := hdst
  exact hinst

/-- The words of a call stand for the instructions of the convention, with a jump that leads to the
callee. -/
theorem encoded_holds {labels : LabelMap} {target : Word} {ss : List Statement}
    (hss : ss = (frameInsts stack kept args).map (fun i => .op i.asWritten) ++
      [.op (jumpLine callee).operation])
    (htarget : labels[Label.named callee]? = some target) {m : Machine} {p : Word} {ws : List Word}
    (hencode : Statement.encodeFrom labels p.toNat ss = .ok ws)
    (hcode : ∀ j w, ws[j]? = some w → m.cpu.peek (p + UInt16.ofNat j) = some w) :
    ∃ distance, m.Holds p (frameInsts stack kept args ++ [jumpInst distance]) ∧
      p + UInt16.ofNat (frameInsts stack kept args).length + Word.ofInt distance = target := by
  subst hss
  obtain ⟨us, hus, vs, hvs, rfl⟩ := Statement.encodeFrom_append_eq_ok_iff.mp hencode
  obtain ⟨_, hlast, _, hnil, rfl⟩ := Statement.encodeFrom_cons_eq_ok_iff.mp hvs
  obtain ⟨w, hw, rfl⟩ := Statement.encode_op_eq_ok_iff.mp hlast
  obtain rfl := Except.ok.inj hnil
  have hlength := Statement.length_encodeFrom hus
  rw [Statement.sizes_written] at hlength hw
  have hjump : UInt16.ofNat (p.toNat + (frameInsts stack kept args).length)
      = p + UInt16.ofNat (frameInsts stack kept args).length := by
    rw [UInt16.ofNat_add, UInt16.ofNat_toNat]
  rw [hjump] at hw
  have hdecode := decode_of_encode_jumpLine htarget hw
  refine ⟨_, Machine.holds_append.mpr ⟨?_, ⟨w, ?_, hdecode⟩, trivial⟩, ?_⟩
  · refine Statement.holds_of_encodeFrom (fun i => hasMem_of_mem_frameInsts) hus fun j v hv => ?_
    refine hcode j v ?_
    rw [List.getElem?_append_left (List.getElem?_eq_some_iff.mp hv).1]
    exact hv
  · refine hcode _ w ?_
    rw [← hlength, List.getElem?_append_right (Nat.le_refl _), Nat.sub_self]
    rfl
  · rw [Word.ofInt_sub, Word.ofInt_toNat, Word.ofInt_toNat]
    grind

end Call

end Assembly

namespace Machine

open Assembly Assembly.Call

variable {m : Machine} {stack : Reg} {kept : Nat}

/-- There are fewer arguments than addresses, as long as one address is spared. -/
theorem Spares.lt {n : Nat} {a : Word} (h : m.Spares stack kept n a) : n < 65535 := by
  have hne := h (m.cpu.regs.get stack - UInt16.ofNat kept - 1 - a).toNat
  rw [UInt16.ofNat_toNat] at hne
  have hlt := Word.toNat_lt (m.cpu.regs.get stack - UInt16.ofNat kept - 1 - a)
  by_contra hle
  refine hne (by omega) ?_
  grind

/-- One machine is another after a call of a target that is to come back to an address. The words
kept, the return address and the arguments are on the stack, control is at the target, and nothing
else has changed but the count of instructions. A call whose jump leads to itself halts. -/
structure HasCalled (m m' : Machine) (stack : Reg) (kept : Nat) (args : List Argument)
    (back target : Word) : Prop where
  regs_eq : m'.cpu.regs = { m.cpu.regs.set stack
    (m.cpu.regs.get stack - UInt16.ofNat kept - 1 - UInt16.ofNat args.length) with pc := target }
  peek_back : m'.cpu.peek (m.cpu.regs.get stack - UInt16.ofNat kept - 1) = some back
  peek_argument : ∀ i arg, args[i]? = some arg →
    m'.cpu.peek (m.cpu.regs.get stack - UInt16.ofNat kept - 1 - UInt16.ofNat (i + 1))
      = some (arg.denotes m)
  peek_of_spares : ∀ a, m.Spares stack kept args.length a → m'.cpu.peek a = m.cpu.peek a
  memory_isFull : m'.cpu.memory.IsFull
  state_eq : m'.cpu.state = if target = back - 1 then .halted else .running
  others_eq : m' = { m with cpu := { m.cpu with
    regs := m'.cpu.regs
    memory := m'.cpu.memory
    state := m'.cpu.state
    instructions := m'.cpu.instructions } }

/-- A machine has called where it has pushed a return address and arguments, and jumped. -/
theorem hasCalled_jumpTo {args : List Argument} {back target : Word} (h : m.IsPlain)
    (hargs : args.length < 65535)
    (hback : back = m.cpu.regs.pc + UInt16.ofNat ((frameInsts stack kept args).length + 1)) :
    HasCalled m (((m.reserve stack kept).pushAll stack
      (back :: args.map (·.denotes m))).jumpTo target) stack kept args back target := by
  have hlength : (back :: args.map (·.denotes m)).length = args.length + 1 := by
    rw [List.length_cons, List.length_map]
  have hpointer : (m.reserve stack kept).cpu.regs.get stack
      = m.cpu.regs.get stack - UInt16.ofNat kept := by
    rw [get_reserve, if_pos rfl]
  have hpushed {j : Nat} {v : Word} (hj : (back :: args.map (·.denotes m))[j]? = some v) :
      ((m.reserve stack kept).pushAll stack (back :: args.map (·.denotes m))).cpu.peek
        (m.cpu.regs.get stack - UInt16.ofNat kept - 1 - UInt16.ofNat j) = some v := by
    rw [← hpointer]
    exact (h.reserve stack kept).peek_pushAll (by omega) hj
  have hpc : ((m.reserve stack kept).pushAll stack (back :: args.map (·.denotes m))).cpu.regs.pc
      = back - 1 := by
    rw [pc_pushAll, pc_reserve, hlength, ← Word.add_ofNat_add, hback, length_frameInsts,
      Word.add_ofNat_succ]
    grind
  refine ⟨?_, ?_, ?_, ?_, ?_, ?_, ?_⟩
  · change { (m.reserve stack kept).cpu.regs.set stack ((m.reserve stack kept).cpu.regs.get stack
      - UInt16.ofNat (back :: args.map (·.denotes m)).length) with pc := target } = _
    rw [hpointer, hlength, Word.sub_ofNat_succ, regs_reserve]
    exact Registers.set_set_self ..
  · have hfirst : _ = some back := @hpushed 0 back rfl
    rwa [Word.sub_ofNat_zero] at hfirst
  · intro i arg harg
    refine hpushed ?_
    rw [List.getElem?_cons_succ, List.getElem?_map, harg]
    rfl
  · exact fun a ha => peek_pushAll_reserve h (Nat.le_of_eq hlength) ha
  · exact (h.reserve stack kept).pushAll.memory
  · have hrunning : (m.reserve stack kept).cpu.state = .running :=
      (isRunning_iff.mp (h.reserve stack kept).isRunning).1
    rw [← hpc, ← hrunning]
    rfl
  · rw [reserve]
    split <;> rfl

end Machine

namespace Assembly

open Call

/-- **Calls follow the calling convention.** Let a line call a label with arguments, in any context,
and let its statements be encoded from where a plain machine stands, under labels that have the
callee. If the words are in memory there, and what the call pushes overlaps neither these words nor
a word that an argument is read from, then running the machine for one step a statement is calling
the label. -/
theorem hasCalled_of_expand {ctx next : Context} {stmts : List (Located Statement)} {stack : Reg}
    {kept : Nat} {callee : List Char} {args : List Argument} {lhs arrow : Token} {rhs : List Token}
    (hwritten : IsWritten ctx.aliases stack kept callee args lhs arrow rhs)
    (hreg : ∀ r k, Argument.reg r k ∈ args → r ≠ stack)
    (hexpand : ctx.expand (lhs :: arrow :: rhs) = (.ok stmts, next))
    (hnumeral : Numeral.read? callee = none) (hloop : callee ≠ "loop".toList)
    (hbreak : callee ≠ "break".toList) {labels : LabelMap} {target : Word}
    (htarget : labels[Label.named callee]? = some target) {m : Machine} {ws : List Word}
    (hencode : Statement.encodeFrom labels m.cpu.regs.pc.toNat (stmts.map (·.val)) = .ok ws)
    (hplain : m.IsPlain)
    (hcode : ∀ j w, ws[j]? = some w → m.cpu.peek (m.cpu.regs.pc + UInt16.ofNat j) = some w)
    (hspareCode : ∀ j < ws.length,
      m.Spares stack kept args.length (m.cpu.regs.pc + UInt16.ofNat j))
    (hspareArgs : ∀ arg ∈ args, ∀ a ∈ arg.address? m, m.Spares stack kept args.length a) :
    stmts.length = (if kept = 0 then 0 else 1) + args.length + 2 ∧
      m.HasCalled (Machine.run stmts.length m) stack kept args
        (m.cpu.regs.pc + UInt16.ofNat stmts.length) target := by
  obtain ⟨c, lines, mid, -, hlines, hstmts⟩ := exists_of_expand hwritten hexpand
  have hpos : 0 < ws.length :=
    List.length_pos_iff.mpr (encodeFrom_ne_nil hlines hstmts hencode)
  have hargs : args.length < 65535 := (hspareCode 0 hpos).lt
  have hvals := statements_written hwritten (by omega) hnumeral hloop hbreak hexpand
  have hlength : stmts.length = (frameInsts stack kept args).length + 1 := by
    have hlengths := congrArg List.length hvals
    simpa only [List.length_map, List.length_append, List.length_singleton] using hlengths
  have hwords : ws.length = (frameInsts stack kept args).length + 1 := by
    rw [Statement.length_encodeFrom hencode, hvals, Statement.sizes_append,
      Statement.sizes_written]
    rfl
  obtain ⟨distance, hholds, hjump⟩ := encoded_holds hvals htarget hencode hcode
  have hrun := Machine.run_call hplain hholds (hwords ▸ hspareCode) hspareArgs hreg
  refine ⟨?_, ?_⟩
  · rw [hlength, Machine.length_frameInsts, length_keepInsts]
    omega
  · rw [hlength, hrun, hjump]
    exact Machine.hasCalled_jumpTo hplain hargs rfl

/-- The tokens of a call that keeps a word, and has a number and the word on top of the stack for
arguments. -/
def sampleTokens : Token × Token × List Token :=
  (⟨⟨1, 1⟩, "2.mem[1]".toList⟩, ⟨⟨1, 10⟩, "<=".toList⟩,
    [⟨⟨1, 13⟩, "go(4.val".toList⟩, ⟨⟨1, 22⟩, "7.imm,".toList⟩, ⟨⟨1, 29⟩, "2.mem)".toList⟩])

/-- The label that the call is of. -/
def sampleLabels : LabelMap := (∅ : LabelMap).insert (.named "go".toList) 0x0013

/-- The words of the call at address 0. -/
def sampleWords : List Word := [0x7B7F, 0x6844, 0x6A47, 0x6958, 0x600F]

theorem isWritten_sampleTokens : IsWritten {} .r2 1 "go".toList [.value 7, .mem .r2 none]
    sampleTokens.1 sampleTokens.2.1 sampleTokens.2.2 := by
  refine ⟨?_, rfl, ⟨"go".toList, "4.val 7.imm, 2.mem".toList, rfl, by decide, rfl, ?_⟩⟩
  · exact @SpellsStack.kept {} .r2 "2.mem".toList "1".toList 1 (by decide) rfl rfl
  · have hitems : (("4.val 7.imm, 2.mem".toList.splitOn ',').map Text.words).filter (!·.isEmpty)
        = [["4.val".toList, "7.imm".toList], ["2.mem".toList]] := by
      decide +kernel
    rw [hitems]
    exact .cons ⟨"7.imm".toList, rfl, rfl⟩ (.cons rfl .nil)

theorem exists_expand_sampleTokens : ∃ stmts next,
    Context.expand {} (sampleTokens.1 :: sampleTokens.2.1 :: sampleTokens.2.2) = (.ok stmts, next) ∧
      Statement.encodeFrom sampleLabels 0 (stmts.map (·.val)) = .ok sampleWords := by
  have hencoded : ((Context.expand {}
      (sampleTokens.1 :: sampleTokens.2.1 :: sampleTokens.2.2)).1.toOption.bind
        fun stmts => (Statement.encodeFrom sampleLabels 0 (stmts.map (·.val))).toOption)
          = some sampleWords := by
    decide +kernel
  generalize Context.expand {} (sampleTokens.1 :: sampleTokens.2.1 :: sampleTokens.2.2) = result
    at hencoded ⊢
  obtain ⟨answer, next⟩ := result
  obtain ⟨stmts, hstmts, hwords⟩ := Option.bind_eq_some_iff.mp hencoded
  rw [toOption_eq_some_iff] at hstmts hwords
  exact ⟨stmts, next, congrArg (·, next) hstmts, hwords⟩

/-- On a machine that was just started, what is pushed is found at the top of memory. -/
theorem hasCalled_of_expand_started :
    ∃ m, Machine.start sampleWords = .ok m ∧
      m.HasCalled (Machine.run 5 m) .r2 1 [.value 7, .mem .r2 none] 5 0x0013 := by
  obtain ⟨m, hm⟩ := @Machine.exists_start sampleWords (by simp [sampleWords])
  refine ⟨m, hm, ?_⟩
  have hregs := Machine.regs_start hm
  obtain ⟨stmts, next, hexpand, hencode⟩ := exists_expand_sampleTokens
  have hsmall : ∀ j < 5, (UInt16.ofNat j).toNat = j := by decide
  have haddr (j : Nat) : m.cpu.regs.pc + UInt16.ofNat j = UInt16.ofNat j := by
    rw [hregs]
    exact UInt16.zero_add _
  -- What is pushed is at the other end of memory.
  have hhigh : ∀ j ≤ 2, ¬ ((0 : Word) - UInt16.ofNat 1 - 1 - UInt16.ofNat j).toNat < 5 := by
    decide
  have hspares : ∀ a : Word, a.toNat < 5 → m.Spares .r2 1 2 a := by
    intro a ha j hj hequal
    rw [hregs] at hequal
    exact hhigh j hj (hequal ▸ ha)
  have hencoded : Statement.encodeFrom sampleLabels m.cpu.regs.pc.toNat (stmts.map (·.val))
      = .ok sampleWords := by
    rw [hregs]
    exact hencode
  have hcode : ∀ j w, sampleWords[j]? = some w →
      m.cpu.peek (m.cpu.regs.pc + UInt16.ofNat j) = some w := by
    intro j w hj
    have hlt : j < 5 := (List.getElem?_eq_some_iff.mp hj).1
    rw [haddr, Machine.peek_start hm, hsmall j hlt, hj]
    rfl
  have hspareCode : ∀ j < sampleWords.length,
      m.Spares .r2 1 2 (m.cpu.regs.pc + UInt16.ofNat j) := by
    intro j hj
    rw [haddr]
    exact hspares _ ((hsmall j hj).symm ▸ hj)
  have hspareArgs : ∀ arg ∈ [Argument.value 7, .mem .r2 none], ∀ a ∈ arg.address? m,
      m.Spares .r2 1 2 a := by
    intro arg harg a ha
    simp only [List.mem_cons, List.not_mem_nil, or_false] at harg
    rcases harg with rfl | rfl
    · cases ha
    · obtain rfl := Option.some.inj ha
      rw [hregs]
      exact hspares _ (by decide)
  obtain ⟨hlength, hcalled⟩ := hasCalled_of_expand isWritten_sampleTokens (by simp) hexpand
    (by decide +kernel) (by decide) (by decide) (show sampleLabels[Label.named "go".toList]?
      = some 0x0013 by decide +kernel) hencoded (.of_start hm) hcode hspareCode hspareArgs
  rw [hlength, haddr] at hcalled
  exact hcalled

end Assembly

end WordMachine
