import WordMachine.Proofs.Fidelity

/-!
# What a word keeps of an instruction

An instruction may have immediates that do not fit, or a push with no pointer to move, and it has a
word all the same. What is read back from that word is `Inst.kept`: the immediates are folded into
their bits, and the push is gone. So a word is the word of exactly one legal instruction, and an
instruction survives its encoding exactly if it is that one.

The assembler never asks the codec whether an immediate survives. It compares it with a range, once
for each side. The two sides of the codec can be told apart in the same way, since in no layout does
the immediate of one operand reach into the bits of the other.

## Main results

* `Inst.decode_encode_eq_kept`: what is read back from the word of any instruction
* `Inst.kept_eq_self_iff`: the instructions that are kept whole
* `Inst.decode_encode_eq_self_iff`: the same of the codec, and of the immediates one by one
-/

namespace WordMachine

namespace Layout

variable {l : Layout}

/-- Where there is no room for an immediate, it has to be zero. -/
theorem mem_destinationRange_iff {v : Int} :
    v ∈ l.destinationRange ↔ match l.destinationRange? with
      | some range => v ∈ range
      | none => v = 0 := by
  rw [destinationRange]
  cases l.destinationRange? with
  | some range => rfl
  | none => exact Range.mem_zero

/-- The immediate of the source is read from bits that hold nothing of the destination's. -/
theorem fst_values_field (l : Layout) (srcImm dstImm : Int) :
    (l.values (l.field srcImm dstImm)).1 = (l.values (l.field srcImm 0)).1 := by
  cases l with
  | single width signed => rfl
  | split =>
    simp only [values, field]
    omega

/-- The immediate of the destination is read from bits that hold nothing of the source's. -/
theorem snd_values_field (l : Layout) (srcImm dstImm : Int) :
    (l.values (l.field srcImm dstImm)).2 = (l.values (l.field 0 dstImm)).2 := by
  cases l with
  | single width signed => rfl
  | split =>
    simp only [values, field]
    omega

/-- The bits of immediates are also those of what is read from them. -/
theorem field_values_field (l : Layout) (srcImm dstImm : Int) :
    l.field (l.values (l.field srcImm dstImm)).1 (l.values (l.field srcImm dstImm)).2
      = l.field srcImm dstImm := by
  rw [field_values, Nat.mod_eq_of_lt (l.field_lt srcImm dstImm)]

end Layout

namespace Inst

/-- What the word of an instruction keeps of it. -/
def kept (i : Inst) : Inst :=
  let imms := i.layout.values (i.layout.field i.srcImm i.dstImm)
  { i with srcImm := imms.1, dstImm := imms.2, push := i.push && i.hasMem }

theorem hasMem_kept (i : Inst) : i.kept.hasMem = i.hasMem := rfl

theorem legal_kept (i : Inst) : i.kept.Legal := by
  have hmem := Layout.values_mem (Layout.width_pos i.cls i.src i.dst)
    (i.layout.field i.srcImm i.dstImm)
  refine ⟨hmem.1, hmem.2, fun hpush => ?_⟩
  exact (Bool.and_eq_true _ _ ▸ hpush : _ ∧ _).2

theorem payload_kept (i : Inst) : i.kept.payload = i.payload := by
  have hfield := i.layout.field_values_field i.srcImm i.dstImm
  rw [payload, payload, ← hfield]
  rfl

theorem pushBit_kept (i : Inst) : i.kept.pushBit = i.pushBit := by
  have hpush : i.kept.push = (i.push && i.hasMem) := rfl
  rw [pushBit, pushBit, hpush, hasMem_kept, Bool.and_assoc, Bool.and_self]

/-- What is kept is all that the word depends on. -/
theorem encode_kept (i : Inst) : encode i.kept = encode i := by
  apply UInt16.toNat_inj.mp
  rw [toNat_encode, toNat_encode, payload_kept, pushBit_kept]
  rfl

/-- **What is read back from the word of an instruction is what the word keeps of it.** -/
theorem decode_encode_eq_kept (i : Inst) : decode (encode i) = i.kept := by
  rw [← encode_kept, decode_encode i.legal_kept]

/-- **The instructions that are kept whole are the legal ones.** -/
theorem kept_eq_self_iff {i : Inst} : i.kept = i ↔ i.Legal := by
  constructor
  · intro h
    rw [← h]
    exact i.legal_kept
  · intro h
    rw [← decode_encode_eq_kept, decode_encode h]

/-- The immediate of the source is kept if it is in range, whatever the rest of the instruction. -/
theorem srcImm_kept_eq_iff {i : Inst} :
    i.kept.srcImm = i.srcImm ↔ i.srcImm ∈ i.layout.sourceRange := by
  constructor
  · intro h
    rw [← h]
    exact i.legal_kept.srcImm_mem
  · intro h
    have hlt := i.layout.field_lt i.srcImm 0
    have hvalues := Layout.values_eq (Layout.width_pos i.cls i.src i.dst) h
      (Layout.zero_mem_destinationRange i.cls i.src i.dst) (Nat.mod_eq_of_lt hlt)
    exact (i.layout.fst_values_field i.srcImm i.dstImm).trans (congrArg Prod.fst hvalues)

theorem dstImm_kept_eq_iff {i : Inst} :
    i.kept.dstImm = i.dstImm ↔ i.dstImm ∈ i.layout.destinationRange := by
  constructor
  · intro h
    rw [← h]
    exact i.legal_kept.dstImm_mem
  · intro h
    have hlt := i.layout.field_lt 0 i.dstImm
    have hvalues := Layout.values_eq (Layout.width_pos i.cls i.src i.dst)
      (Layout.zero_mem_sourceRange i.cls i.src i.dst) h (Nat.mod_eq_of_lt hlt)
    exact (i.layout.snd_values_field i.srcImm i.dstImm).trans (congrArg Prod.snd hvalues)

/-! ### The range checks of the assembler -/

open Assembly (LabelMap Operation checkRange checkRange_eq_ok_iff bind_eq_ok_iff pure_eq_ok_iff)

/-- An operation with numbers in the place of its immediates. -/
def ofOperation (op : Operation) (srcImm dstImm : Int) : Inst :=
  { op with srcImm := srcImm, dstImm := dstImm }

/-- An operation is completed exactly if its immediates stand for numbers that are both kept. -/
theorem exists_toInst_iff {op : Operation} {labels : LabelMap} {address : Word} :
    (∃ i, op.toInst labels address = .ok i) ↔
      ∃ src dst, op.srcImm.resolve labels address = .ok src ∧
        op.dstImm.resolve labels address = .ok dst ∧
        (ofOperation op src dst).kept.srcImm = src ∧
          (ofOperation op src dst).kept.dstImm = dst := by
  have hsrc (src dst : Int) :
      (ofOperation op src dst).kept.srcImm = src ↔ src ∈ op.layout.sourceRange :=
    @srcImm_kept_eq_iff (ofOperation op src dst)
  have hdst (src dst : Int) :
      (ofOperation op src dst).kept.dstImm = dst ↔ dst ∈ op.layout.destinationRange :=
    @dstImm_kept_eq_iff (ofOperation op src dst)
  simp only [hsrc, hdst, Operation.toInst, bind_eq_ok_iff, pure_eq_ok_iff, checkRange_eq_ok_iff]
  constructor
  · rintro ⟨_, src, hsrc, _, ⟨hsrcMem, rfl⟩, dst, hdst, _, ⟨hdstMem, rfl⟩, -⟩
    exact ⟨src, dst, hsrc, hdst, hsrcMem, hdstMem⟩
  · rintro ⟨src, dst, hsrc, hdst, hsrcMem, hdstMem⟩
    exact ⟨_, src, hsrc, src, ⟨hsrcMem, rfl⟩, dst, hdst, dst, ⟨hdstMem, rfl⟩, rfl⟩

/-- **The codec is faithful exactly on legal instructions.** An instruction with any integers for
immediates is read back from its word if and only if the immediates are in the ranges of its layout,
the one of the destination being zero where there is no range for it, and a push in it has a pointer
to move; and every word is the word of what is read from it. The immediates are judged one by one: a
range check lets through those that are read back, whatever else is wrong with the instruction. So
the assembler completes an operation exactly if the numbers that its immediates stand for are what
the machine reads. -/
theorem decode_encode_eq_self_iff :
    (∀ i : Inst, decode (encode i) = i ↔
      i.srcImm ∈ i.layout.sourceRange ∧
      (match i.layout.destinationRange? with
        | some range => i.dstImm ∈ range
        | none => i.dstImm = 0) ∧
      (i.push = true → i.hasMem = true)) ∧
    (∀ w : Word, encode (decode w) = w) ∧
    (∀ i : Inst,
      (checkRange i.layout.sourceRange i.srcImm = .ok i.srcImm ↔
        (decode (encode i)).srcImm = i.srcImm) ∧
      (checkRange i.layout.destinationRange i.dstImm = .ok i.dstImm ↔
        (decode (encode i)).dstImm = i.dstImm)) ∧
    ∀ (op : Operation) (labels : LabelMap) (address : Word),
      (∃ i, op.toInst labels address = .ok i) ↔
        ∃ src dst, op.srcImm.resolve labels address = .ok src ∧
          op.dstImm.resolve labels address = .ok dst ∧
          (decode (encode (ofOperation op src dst))).srcImm = src ∧
          (decode (encode (ofOperation op src dst))).dstImm = dst := by
  simp only [decode_encode_eq_kept]
  refine ⟨fun i => ?_, encode_decode, fun i => ?_, fun op labels address => exists_toInst_iff⟩
  · rw [kept_eq_self_iff, ← Layout.mem_destinationRange_iff]
    exact ⟨fun h => ⟨h.1, h.2, h.3⟩, fun h => ⟨h.1, h.2.1, h.2.2⟩⟩
  · rw [srcImm_kept_eq_iff, dstImm_kept_eq_iff, checkRange_eq_ok_iff, checkRange_eq_ok_iff]
    exact ⟨and_iff_left rfl, and_iff_left rfl⟩

end Inst

end WordMachine
