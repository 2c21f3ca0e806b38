import WordMachine.Proofs.Addresses

/-!
# What the machine reads

Packing an instruction into a word drops whatever does not fit. The assembler has to make sure that
nothing is dropped: that an immediate is in range, a push has a pointer to move, and an immediate
beside the destination has room. Numbers are checked as they are read, and the numbers of references
once labels have addresses. `Inst.Legal` collects what both checks come to, and from there the
instruction codec does the rest.

An immediate is compared here with the integer that was written, or with the distance between two
addresses as an integer. No residue is taken on the way.

## Main results

* `Operation.toInst_eq_ok_iff`: what an operation is completed to
* `Operation.readsAs_of_encode`: an operation that was read decodes to itself
* `operations_read_as_written`: the same for all operations of an assembled source
-/

namespace WordMachine

namespace Assembly

/-! ### The meaning of an operation -/

/-- The integer that an immediate in the word at an index stands for. -/
def Imm.Denotes (i : Imm) (labels : LabelMap) (j : Nat) (value : Int) : Prop :=
  match i with
  | .num n => value = n
  | .ref r => ∃ target, labels[r.label]? = some target ∧
      value = match r.kind with
        | .absolute => (target.toNat : Int)
        | .displacement => target.toNat - j

/-- An instruction is what an operation in the word at an index says. -/
structure Operation.ReadsAs (op : Operation) (labels : LabelMap) (j : Nat) (i : Inst) : Prop where
  cls_eq : i.cls = op.cls
  opcode_eq : i.opcode = op.opcode
  src_eq : i.src = op.src
  dst_eq : i.dst = op.dst
  effect_eq : i.effect = op.effect
  push_eq : i.push = op.push
  srcImm_denotes : op.srcImm.Denotes labels j i.srcImm
  dstImm_denotes : op.dstImm.Denotes labels j i.dstImm

theorem Imm.resolve_eq_ok_iff {i : Imm} {labels : LabelMap} {address : Word} {value : Int} :
    i.resolve labels address = .ok value ↔ i.Denotes labels address.toNat value := by
  cases i with
  | num n => simp [resolve, Denotes, eq_comm]
  | ref r => exact LabelRef.resolve_eq_ok_iff

namespace Operation

variable {op : Operation} {labels : LabelMap} {address : Word}

/-- An operation is completed once both immediates have turned out to fit. -/
theorem toInst_eq_ok_iff {i : Inst} :
    op.toInst labels address = .ok i ↔
      ∃ src dst, op.srcImm.Denotes labels address.toNat src ∧ src ∈ op.layout.sourceRange ∧
        op.dstImm.Denotes labels address.toNat dst ∧ dst ∈ op.layout.destinationRange ∧
        i = { op with srcImm := src, dstImm := dst } := by
  simp only [toInst, bind_eq_ok_iff, pure_eq_ok_iff, checkRange_eq_ok_iff, Imm.resolve_eq_ok_iff]
  constructor
  · rintro ⟨src, hsrc, _, ⟨hsrcMem, rfl⟩, dst, hdst, _, ⟨hdstMem, rfl⟩, rfl⟩
    exact ⟨src, dst, hsrc, hsrcMem, hdst, hdstMem, rfl⟩
  · rintro ⟨src, dst, hsrc, hsrcMem, hdst, hdstMem, rfl⟩
    exact ⟨src, hsrc, src, ⟨hsrcMem, rfl⟩, dst, hdst, dst, ⟨hdstMem, rfl⟩, rfl⟩

/-- What an operation is completed to has a word of its own, if a push in it has a pointer. -/
theorem legal_of_toInst (hpush : op.push = true → op.hasMem = true) {i : Inst}
    (h : op.toInst labels address = .ok i) : i.Legal := by
  obtain ⟨src, dst, -, hsrc, -, hdst, rfl⟩ := toInst_eq_ok_iff.mp h
  exact ⟨hsrc, hdst, hpush⟩

/-- The word of an operation is read as the instruction that the operation was completed to. -/
theorem toInst_of_encode (hpush : op.push = true → op.hasMem = true) {w : Word}
    (h : op.encode labels address = .ok w) : op.toInst labels address = .ok (Inst.decode w) := by
  obtain ⟨i, hi, rfl⟩ := map_eq_ok_iff.mp h
  rw [Inst.decode_encode (legal_of_toInst hpush hi)]
  exact hi

theorem readsAs_of_toInst {i : Inst} (h : op.toInst labels address = .ok i) :
    op.ReadsAs labels address.toNat i := by
  obtain ⟨src, dst, hsrc, -, hdst, -, rfl⟩ := toInst_eq_ok_iff.mp h
  exact ⟨rfl, rfl, rfl, rfl, rfl, rfl, hsrc, hdst⟩

/-- An operation that was read decodes to itself, whatever the labels and the address. -/
theorem readsAs_of_encode {cls : Class} {scopes : Scopes} {mnemonic : Token} {rest : List Token}
    (hread : readOperation cls scopes mnemonic rest = .ok op) {w : Word}
    (h : op.encode labels address = .ok w) : op.ReadsAs labels address.toNat (Inst.decode w) := by
  obtain ⟨d, -, hd⟩ := readOperation_eq_ok_iff.mp hread
  exact readsAs_of_toInst (toInst_of_encode hd.hasMem_of_push h)

end Operation

/-! ### Assembled sources -/

open Statement (sizes)

/-- **The machine reads what was written.** Every operation of an assembled source has a word at the
sum of the sizes before it, and that word decodes to what the operation says there. And whatever is
read as an operation decodes to what it says wherever it is encoded, under any labels. -/
theorem operations_read_as_written :
    (∀ source p, assemble? source = .ok p →
      ∃ groups, Context.expandLines {} 1 (Text.lines source) = .ok groups ∧
        ∀ before op behind, Statement.ofLines groups = before ++ .op op :: behind →
          ∃ w, p.words[sizes before]? = some w ∧
            op.ReadsAs p.labels (sizes before) (Inst.decode w)) ∧
    (∀ cls scopes mnemonic rest op, readOperation cls scopes mnemonic rest = .ok op →
      ∀ labels address w, op.encode labels address = .ok w →
        op.ReadsAs labels address.toNat (Inst.decode w)) := by
  refine ⟨?_, fun cls scopes mnemonic rest op hread labels address w =>
    Operation.readsAs_of_encode hread⟩
  intro source p h
  obtain ⟨groups, hgroups, hp, -⟩ := assemble?_eq_ok_iff.mp h
  refine ⟨groups, hgroups, ?_⟩
  intro before op behind hsplit
  obtain ⟨w, hw, hencode⟩ := (hsplit ▸ hp).standsAt
  have hmem : Statement.op op ∈ Statement.ofLines groups := by rw [hsplit]; simp
  obtain ⟨cls, scopes, mnemonic, rest, hread⟩ :=
    (Context.isRead_of_mem_expandLines hgroups hmem).readOperation
  have hlt : sizes before < 65536 := by
    have hsizes := hp.sizes_le
    rw [hsplit, Statement.sizes_append, Statement.sizes_cons, addressSpace] at hsizes
    have hone : (Statement.op op).size = 1 := rfl
    omega
  have hreads := Operation.readsAs_of_encode hread hencode
  rw [Word.toNat_ofNat_of_lt hlt] at hreads
  exact ⟨w, hw, hreads⟩

/-- A distance and an address, each beside an operand of its own. -/
theorem operations_read_as_written_two :
    ∃ p groups,
      assemble? "copy 4.val end.disp 0.reg\ncopy 1.mem end.imm 2.reg\nend:".toList = .ok p ∧
      p.words = [0x6202, 0x7882] ∧
      Context.expandLines {} 1 (Text.lines
        "copy 4.val end.disp 0.reg\ncopy 1.mem end.imm 2.reg\nend:".toList) = .ok groups ∧
      ∀ before op behind, Statement.ofLines groups = before ++ .op op :: behind →
        ∃ w, p.words[sizes before]? = some w ∧
          op.ReadsAs p.labels (sizes before) (Inst.decode w) := by
  obtain ⟨p, hp, hwords⟩ := @exists_program_of_words
    "copy 4.val end.disp 0.reg\ncopy 1.mem end.imm 2.reg\nend:".toList [0x6202, 0x7882]
    (by decide +kernel)
  obtain ⟨groups, hgroups, hreads⟩ := operations_read_as_written.1 _ p hp
  exact ⟨p, groups, hp, hwords, hgroups, hreads⟩

end Assembly

end WordMachine
