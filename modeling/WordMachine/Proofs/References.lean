import WordMachine.Proofs.Execution
import WordMachine.Proofs.Fidelity

/-!
# References at run time

A reference becomes a number long before anything is executed. The assembler subtracts addresses as
integers and checks that the difference fits, the encoder cuts it down to a few bits, and the
machine extends their sign and adds the result to a program counter of 16 bits. In between, nobody
writes down an address again. That the sum comes out at the label all the same is shown here.

The number is right by `Operation.ReadsAs`. The rest is an equation between words: a difference that
is added to the address it was counted from is the other address, and wrapping around does it no
harm (`Word.add_ofInt_sub`). The size of the difference plays no part, because one that does not fit
was refused.

## Main results

* `Operation.ReadsAs.value_pc`, `Operation.ReadsAs.value_imm`: the value of a reference beside the
  two sources that it makes sense beside
* `assemble?_reaches_labels`: references in an assembled and loaded source reach their labels
-/

namespace WordMachine

/-- A difference that is added to what was subtracted. -/
theorem Word.add_ofInt_sub (w target : Word) :
    w + Word.ofInt (target.toNat - w.toNat) = target := by
  rw [Word.ofInt_sub, Word.ofInt_toNat, Word.ofInt_toNat]
  grind

namespace Assembly

open Statement (sizes)

/-! ### The value of a reference -/

namespace Operation.ReadsAs

variable {op : Operation} {labels : LabelMap} {j : Nat} {i : Inst} {r : LabelRef} {m : Machine}

/-- The number of a reference beside the source, by its kind. -/
theorem srcImm_ref (h : op.ReadsAs labels j i) (href : op.srcImm = .ref r) :
    ∃ target, labels[r.label]? = some target ∧
      i.srcImm = match r.kind with
        | .absolute => (target.toNat : Int)
        | .displacement => target.toNat - j := by
  have hdenotes := h.srcImm_denotes
  rw [href] at hdenotes
  exact hdenotes

/-- A distance that is counted from the program counter ends at the label. -/
theorem value_pc (h : op.ReadsAs labels j i) (hsrc : op.src = .pc) (href : op.srcImm = .ref r)
    (hkind : r.kind = .displacement) {target : Word} (htarget : labels[r.label]? = some target)
    (hpc : m.cpu.regs.pc.toNat = j) :
    m.value i.src i.srcImm = target := by
  obtain ⟨other, hother, himm⟩ := h.srcImm_ref href
  obtain rfl := Option.some.inj (htarget.symm.trans hother)
  rw [hkind] at himm
  rw [h.src_eq, hsrc, himm, ← hpc]
  exact Word.add_ofInt_sub _ _

/-- An address that stands alone is that of the label. -/
theorem value_imm (h : op.ReadsAs labels j i) (hsrc : op.src = .imm) (href : op.srcImm = .ref r)
    (hkind : r.kind = .absolute) {target : Word} (htarget : labels[r.label]? = some target) :
    m.value i.src i.srcImm = target := by
  obtain ⟨other, hother, himm⟩ := h.srcImm_ref href
  obtain rfl := Option.some.inj (htarget.symm.trans hother)
  rw [hkind] at himm
  rw [h.src_eq, hsrc, himm]
  exact Word.ofInt_toNat target

end Operation.ReadsAs

/-! ### Loaded programs -/

namespace Program.Realizes

variable {p : Program} {before behind : List Statement} {op : Operation}

/-- An operation of a loaded program is found at its address and reads as it was written. -/
theorem exists_readsAs (h : p.Realizes (before ++ .op op :: behind))
    (hread : (Statement.op op).IsRead) {id : Word} {rom : Nat} {cpu : Processor}
    (hload : (Processor.new id 256 rom).load p.words = .ok cpu) :
    ∃ w, cpu.peek (UInt16.ofNat (sizes before)) = some w ∧ sizes before < 65536 ∧
      op.ReadsAs p.labels (sizes before) (Inst.decode w) := by
  obtain ⟨w, hw, hencode⟩ := h.standsAt
  obtain ⟨cls, scopes, mnemonic, rest, hop⟩ := hread.readOperation
  have hlt : sizes before < 65536 := by
    have hsizes := h.sizes_le
    rw [Statement.sizes_append, Statement.sizes_cons, addressSpace] at hsizes
    have hone : (Statement.op op).size = 1 := rfl
    omega
  have hreads := Operation.readsAs_of_encode hop hencode
  rw [Word.toNat_ofNat_of_lt hlt] at hreads
  refine ⟨w, ?_, hlt, hreads⟩
  rw [Processor.peek_load hload, Word.toNat_ofNat_of_lt hlt, hw]
  rfl

end Program.Realizes

/-- **References reach their labels.** An assembled source can be loaded into a processor of 256
pages, and there every operation stands at the sum of the sizes before it. Any machine that has come
to that address, and still has that word there, gets the address of the label as the source value of
the operation: from a distance that is counted from the program counter, and from an address that is
the source itself. A copy of such a distance into the program counter, under every flag, is a jump
to the label. -/
theorem assemble?_reaches_labels {source : List Char} {p : Program}
    (h : assemble? source = .ok p) :
    ∃ groups, Context.expandLines {} 1 (Text.lines source) = .ok groups ∧
      ∀ id rom, ∃ cpu, (Processor.new id 256 rom).load p.words = .ok cpu ∧
        ∀ before op behind, Statement.ofLines groups = before ++ .op op :: behind →
          ∀ r, op.srcImm = .ref r →
            ∃ target w, p.labels[r.label]? = some target ∧
              cpu.peek (UInt16.ofNat (sizes before)) = some w ∧
              ∀ m : Machine, m.cpu.regs.pc = UInt16.ofNat (sizes before) →
                m.cpu.peek m.cpu.regs.pc = some w →
                (op.src = .pc → r.kind = .displacement →
                  m.sourceValue (Inst.decode w) = (target, m)) ∧
                (op.src = .imm → r.kind = .absolute →
                  m.sourceValue (Inst.decode w) = (target, m)) ∧
                (op.src = .pc → r.kind = .displacement → op.opcode = .copy → op.dst = .pc →
                  op.effect = .always → m.isRunning = true → m.step = m.jumpTo target) := by
  obtain ⟨groups, hgroups, hp, -⟩ := assemble?_eq_ok_iff.mp h
  refine ⟨groups, hgroups, ?_⟩
  intro id rom
  have hlength : p.words.length ≤ 65536 := hp.length_words ▸ hp.sizes_le
  obtain ⟨cpu, hload⟩ := Processor.exists_load id rom hlength
  refine ⟨cpu, hload, ?_⟩
  intro before op behind hsplit r href
  have hmem : Statement.op op ∈ Statement.ofLines groups := by rw [hsplit]; simp
  obtain ⟨w, hw, hlt, hreads⟩ :=
    (hsplit ▸ hp).exists_readsAs (Context.isRead_of_mem_expandLines hgroups hmem) hload
  obtain ⟨target, htarget, -⟩ := hreads.srcImm_ref href
  refine ⟨target, w, htarget, hw, ?_⟩
  intro m hpc hfetch
  have hpcNat : m.cpu.regs.pc.toNat = sizes before := by
    rw [hpc, Word.toNat_ofNat_of_lt hlt]
  refine ⟨?_, ?_, ?_⟩
  · intro hsrc hkind
    have hmem : (Inst.decode w).src.isMem = false := by rw [hreads.src_eq, hsrc]; rfl
    rw [Machine.sourceValue_of_not_mem hmem, hreads.value_pc hsrc href hkind htarget hpcNat]
  · intro hsrc hkind
    have hmem : (Inst.decode w).src.isMem = false := by rw [hreads.src_eq, hsrc]; rfl
    rw [Machine.sourceValue_of_not_mem hmem, hreads.value_imm hsrc href hkind htarget]
  · intro hsrc hkind hcopy hdst heffect hrun
    have hmem : (Inst.decode w).src.isMem = false := by rw [hreads.src_eq, hsrc]; rfl
    rw [Machine.step_jump hrun hfetch rfl (hreads.opcode_eq.trans hcopy)
      (hreads.effect_eq.trans heffect) (hreads.dst_eq.trans hdst) hmem,
      hreads.value_pc hsrc href hkind htarget hpcNat]

/-- A jump forward over a jump back. The first one is made by a processor that has just been loaded,
and the second one by one that has got there. -/
theorem assemble?_reaches_labels_two :
    ∃ p cpu,
      assemble? "top:\ncopy 0.reg end.disp 0.reg\ncopy 0.reg top.disp 0.reg\nend:".toList = .ok p ∧
      p.words = [0x6002, 0x607F] ∧ (Processor.new 1 256 0).load p.words = .ok cpu ∧
      ({ cpu := cpu } : Machine).step = ({ cpu := cpu } : Machine).jumpTo 2 ∧
      ({ cpu := { cpu with regs.pc := 1 } } : Machine).step
        = ({ cpu := { cpu with regs.pc := 1 } } : Machine).jumpTo 0 := by
  have hcompute : (assemble? "top:\ncopy 0.reg end.disp 0.reg\ncopy 0.reg top.disp 0.reg\nend:".toList
      ).toOption.map (fun p => (p.words, p.labels[Label.named "top".toList]?,
        p.labels[Label.named "end".toList]?)) = some ([0x6002, 0x607F], some 0, some 2) := by
    decide +kernel
  obtain ⟨p, hp, hfields⟩ := Option.map_eq_some_iff.mp hcompute
  have hassembled := toOption_eq_some_iff.mp hp
  simp only [Prod.mk.injEq] at hfields
  obtain ⟨hwords, htop, hend⟩ := hfields
  obtain ⟨groups, hgroups, hloaded⟩ := assemble?_reaches_labels hassembled
  let jump (name : List Char) : Operation :=
    { opcode := .copy, src := .pc, dst := .pc, srcImm := .ref ⟨.named name, .displacement⟩,
      dstImm := .num 0, effect := .always, push := false }
  have hlines : (Context.expandLines {} 1 (Text.lines
      "top:\ncopy 0.reg end.disp 0.reg\ncopy 0.reg top.disp 0.reg\nend:".toList)).toOption.map
        Statement.ofLines = some [.label (.named "top".toList), .op (jump "end".toList),
          .op (jump "top".toList), .label (.named "end".toList)] := by
    decide +kernel
  rw [hgroups] at hlines
  have hsplit := Option.some.inj hlines
  obtain ⟨cpu, hload, hreach⟩ := hloaded 1 0
  refine ⟨p, cpu, hassembled, hwords, hload, ?_, ?_⟩
  · obtain ⟨target, w, htarget, hw, hm⟩ := hreach [.label _] _ _ hsplit _ rfl
    obtain rfl := Option.some.inj (hend.symm.trans htarget)
    obtain ⟨mem, -, rfl⟩ := Processor.load_eq_ok_iff.mp hload
    have hstep := hm { cpu := { Processor.new 1 256 0 with memory := mem } } rfl hw
    exact hstep.2.2 rfl rfl rfl rfl rfl rfl
  · obtain ⟨target, w, htarget, hw, hm⟩ := hreach [.label _, .op _] _ _ hsplit _ rfl
    obtain rfl := Option.some.inj (htop.symm.trans htarget)
    obtain ⟨mem, -, rfl⟩ := Processor.load_eq_ok_iff.mp hload
    have hfetch : mem.readAt 1 = some w := hw
    have hstep := hm { cpu := { Processor.new 1 256 0 with memory := mem, regs.pc := 1 } } rfl
      hfetch
    exact hstep.2.2 rfl rfl rfl rfl rfl rfl

end Assembly

end WordMachine
