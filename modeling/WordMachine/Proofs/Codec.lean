import Mathlib.Algebra.Group.Nat.Defs
import WordMachine.Isa.Instruction
import WordMachine.Proofs.Masks

/-!
# The instruction codec

A word has room for every instruction that can be written, and for nothing else. `Inst.Legal` says
which instructions those are: the ones whose immediates lie in the ranges of their layout, and which
move a pointer only where there is one. On these, encoding and decoding are inverse.

## How the proof is laid out

A word is put together and taken apart by shifts and masks. No two fields meet, so it is the sum of
its fields (`Inst.toNat_encode`), each of which is the remainder of a quotient, and immediates with
a sign are centred residues (`Layout.unpack_eq`). From there on the proof is about numbers.

The fields above the push bit have fixed places, so each is read back by a division and a remainder.
Below them the division changes with the layout. What is kept there is taken together as the
*payload*: the immediates, with the operation underneath. It has six bits beside a push bit and
seven without one, and that is the only fact about layouts that the codec depends on
(`Layout.width_add_shift`).

## Main results

* `Layout.toNat_pack`, `Layout.unpack_eq`: the shifted and masked immediates as numbers
* `Inst.decode_encode`: a legal instruction is read back from its word
* `Inst.legal_decode`, `Inst.encode_decode`: every word stands for a legal instruction, and is the
  word of that instruction
-/

namespace WordMachine

/-! ### Ranges and the bits that fill them -/

namespace Range

theorem mem_ofBits_false {i : Int} {width : Nat} :
    i ∈ ofBits width false ↔ 0 ≤ i ∧ i < Word.patterns width := by
  rw [mem_iff]
  simp only [ofBits, Bool.false_eq_true, if_false]
  omega

theorem mem_ofBits_true {i : Int} {width : Nat} :
    i ∈ ofBits (width + 1) true ↔
      -(Word.patterns width : Int) ≤ i ∧ i < Word.patterns width := by
  rw [mem_iff]
  simp only [ofBits, if_true, Nat.add_sub_cancel]
  omega

theorem mem_zero {i : Int} : i ∈ zero ↔ i = 0 := by
  rw [mem_iff]
  simp only [zero]
  omega

end Range

namespace Layout

/-- The immediate bits as a number. Bits that do not fit are dropped. -/
def field (l : Layout) (srcImm dstImm : Int) : Nat :=
  match l with
  | single width _ => (srcImm % Word.patterns width).toNat
  | split => (srcImm % 8).toNat * 8 + (dstImm % 8).toNat

/-- The immediates of source and destination that stand in the lowest bits of a number. -/
def values (l : Layout) (raw : Nat) : Int × Int :=
  match l with
  | single width signed =>
    (if signed then Int.bmod (raw % Word.patterns width : Nat) (Word.patterns width)
      else (raw % Word.patterns width : Nat), 0)
  | split => ((raw / 8 % 8 : Nat), (raw % 8 : Nat))

theorem field_lt (l : Layout) (srcImm dstImm : Int) :
    l.field srcImm dstImm < Word.patterns l.width := by
  cases l with
  | single w s =>
    have hp : (0 : Int) < Word.patterns w := Int.ofNat_lt.mpr (Word.patterns_pos w)
    have h := Int.emod_lt_of_pos srcImm hp
    have h0 := Int.emod_nonneg srcImm (Int.ne_of_gt hp)
    simp only [field, width]
    omega
  | split =>
    simp only [field, width, Word.patterns]
    omega

theorem shift_le (c : Class) : shift c ≤ 4 := by cases c <;> decide

/-- The word that is packed is the field, moved to its place. -/
theorem toNat_pack {l : Layout} (hl : l.width ≤ 7) (c : Class) (srcImm dstImm : Int) :
    (l.pack c srcImm dstImm).toNat = l.field srcImm dstImm * 2 ^ shift c := by
  have hshift := shift_le c
  have hroom : l.field srcImm dstImm * 2 ^ shift c < 65536 := by
    have hfield := l.field_lt srcImm dstImm
    have hpatterns : Word.patterns l.width ≤ 2 ^ 7 := by
      rw [Word.patterns_eq]
      exact Nat.pow_le_pow_right (by decide) hl
    have hpow : 2 ^ shift c ≤ 2 ^ 4 := Nat.pow_le_pow_right (by decide) hshift
    calc l.field srcImm dstImm * 2 ^ shift c
      _ ≤ 2 ^ 7 * 2 ^ 4 := Nat.mul_le_mul (by omega) hpow
      _ < 65536 := by decide
  cases l with
  | single w s =>
    have hw : w < 16 := Nat.lt_of_le_of_lt hl (by decide)
    rw [pack, Word.toNat_shiftLeft _ (by omega), Word.toNat_ofInt_and_mask srcImm hw]
    exact Nat.mod_eq_of_lt hroom
  | split =>
    have hsrc := Word.toNat_ofInt_and_mask srcImm (by decide : splitWidth < 16)
    have hdst := Word.toNat_ofInt_and_mask dstImm (by decide : splitWidth < 16)
    have hhigh : ((Word.ofInt srcImm &&& Word.mask splitWidth) <<< UInt16.ofNat splitWidth).toNat
        = (srcImm % 8).toNat * 8 := by
      rw [Word.toNat_shiftLeft _ (by decide), hsrc]
      simp only [splitWidth, Word.patterns]
      omega
    rw [pack, Word.toNat_shiftLeft _ (by omega), Word.toNat_or 3 (by omega) (by
      rw [hdst]; simp only [splitWidth, Word.patterns]; omega), hhigh, hdst]
    exact Nat.mod_eq_of_lt hroom

/-- What is unpacked are the values of the number that is left of the field. -/
theorem unpack_eq {l : Layout} (hpos : 0 < l.width) (hl : l.width ≤ 7) (c : Class) (w : Word) :
    l.unpack c w = l.values (w.toNat / 2 ^ shift c) := by
  have hshift := shift_le c
  have hraw := Word.toNat_shiftRight w (by omega : shift c < 16)
  cases l with
  | single w' signed =>
    have hw : w' < 16 := Nat.lt_of_le_of_lt hl (by decide)
    have hsigned (field : Word) := Word.signed_signExtend field hpos (Nat.le_of_lt hw)
    simp only [width] at hsigned
    simp only [unpack, values, hsigned, Word.toNat_and_mask _ hw, hraw]
  | split =>
    simp only [unpack, values]
    rw [Word.toNat_and_mask _ (by decide), Word.toNat_and_mask _ (by decide),
      Word.toNat_shiftRight _ (by decide), hraw]
    rfl

/-- Immediates that are in range are read back from their bits. -/
theorem values_eq {l : Layout} {srcImm dstImm : Int} {raw : Nat} (hl : 0 < l.width)
    (hs : srcImm ∈ l.sourceRange) (hd : dstImm ∈ l.destinationRange)
    (hraw : raw % Word.patterns l.width = l.field srcImm dstImm) :
    l.values raw = (srcImm, dstImm) := by
  cases l with
  | single w signed =>
    obtain ⟨n, rfl⟩ : ∃ n, w = n + 1 := ⟨w - 1, by simp only [width] at hl; omega⟩
    have hp := Word.patterns_pos (n + 1)
    have hdst : dstImm = 0 := Range.mem_zero.mp hd
    have hmod : ((raw % Word.patterns (n + 1) : Nat) : Int) = srcImm % Word.patterns (n + 1) := by
      rw [show raw % Word.patterns (n + 1) = (srcImm % Word.patterns (n + 1)).toNat from hraw]
      exact Int.toNat_of_nonneg (Int.emod_nonneg _ (by omega))
    simp only [values, hdst, hmod, Prod.mk.injEq, and_true]
    cases signed with
    | true =>
      obtain ⟨hlow, hhigh⟩ := Range.mem_ofBits_true.mp hs
      simp only [if_true, Int.emod_bmod]
      refine Int.bmod_eq_of_le_mul_two ?_ ?_ <;> rw [Word.patterns] <;> omega
    | false =>
      obtain ⟨hlow, hhigh⟩ := Range.mem_ofBits_false.mp hs
      simpa using Int.emod_eq_of_lt hlow hhigh
  | split =>
    obtain ⟨hs0, hs1⟩ := Range.mem_ofBits_false.mp hs
    obtain ⟨hd0, hd1⟩ := Range.mem_ofBits_false.mp hd
    simp only [width, field, Word.patterns] at hraw hs1 hd1
    simp only [values, Prod.mk.injEq]
    omega

/-- The bits of the immediates read from a number are its lowest bits. -/
theorem field_values (l : Layout) (raw : Nat) :
    l.field (l.values raw).1 (l.values raw).2 = raw % Word.patterns l.width := by
  cases l with
  | single w signed =>
    have hlt := Nat.mod_lt raw (Word.patterns_pos w)
    have hmod : (raw % Word.patterns w : Nat) % (Word.patterns w : Int)
        = (raw % Word.patterns w : Nat) := Int.emod_eq_of_lt (by omega) (by omega)
    cases signed with
    | true => simp only [field, values, width, if_true, Int.bmod_emod, hmod, Int.toNat_natCast]
    | false =>
      simp only [field, values, width, Bool.false_eq_true, if_false, hmod, Int.toNat_natCast]
  | split =>
    simp only [field, values, width, Word.patterns]
    omega

/-- Whatever is read from a number is in range. -/
theorem values_mem {l : Layout} (hl : 0 < l.width) (raw : Nat) :
    (l.values raw).1 ∈ l.sourceRange ∧ (l.values raw).2 ∈ l.destinationRange := by
  cases l with
  | single w signed =>
    obtain ⟨n, rfl⟩ : ∃ n, w = n + 1 := ⟨w - 1, by simp only [width] at hl; omega⟩
    refine ⟨?_, Range.mem_zero.mpr rfl⟩
    have hp := Word.patterns_pos (n + 1)
    cases signed with
    | true =>
      refine Range.mem_ofBits_true.mpr ?_
      have hlow := Int.le_bmod (x := (raw % Word.patterns (n + 1) : Nat)) hp
      have hhigh := Int.bmod_lt (x := (raw % Word.patterns (n + 1) : Nat)) hp
      simp only [values, if_true]
      rw [Word.patterns] at *
      omega
    | false =>
      refine Range.mem_ofBits_false.mpr ?_
      have hlt := Nat.mod_lt raw hp
      simp only [values, Bool.false_eq_true, if_false]
      omega
  | split =>
    refine ⟨Range.mem_ofBits_false.mpr ?_, Range.mem_ofBits_false.mpr ?_⟩ <;>
      simp only [values, Word.patterns] <;> omega

theorem width_add_shift (c : Class) (src : Source) (dst : Destination) :
    (of c src dst).width + shift c = if src.isMem || dst.isMem then 6 else 7 := by
  unfold of
  cases c <;> rcases src.isMem with _ | _ <;> rcases dst.isMem with _ | _ <;> rfl

theorem width_pos (c : Class) (src : Source) (dst : Destination) : 0 < (of c src dst).width := by
  have h := width_add_shift c src dst
  have hs := shift_le c
  split at h <;> omega

theorem width_le_seven (c : Class) (src : Source) (dst : Destination) :
    (of c src dst).width ≤ 7 := by
  have h := width_add_shift c src dst
  split at h <;> omega

end Layout

/-! ### Fields of fixed width -/

namespace Effect

theorem ofBits_mod (n : Nat) : ofBits (n % 4) = ofBits n := by rw [ofBits, ofBits, Nat.mod_mod]

theorem toNat_encode (e : Effect) : e.encode.toNat = e.code * 8192 := by
  have h := e.code_lt
  exact Word.toNat_ofNat_shiftLeft 13 (by decide) (by omega)

theorem decode_eq_ofBits (w : Word) : decode w = ofBits (w.toNat / 8192) := by
  have hfield : ((w &&& 0x6000) >>> 13).toNat = w.toNat / 8192 % 4 := by
    refine (Word.toNat_shiftRight _ (by decide : 13 < 16)).trans ?_
    rw [UInt16.toNat_and, ← Nat.shiftRight_eq_div_pow, Nat.shiftRight_and_distrib,
      Nat.shiftRight_eq_div_pow]
    exact Nat.and_two_pow_sub_one_eq_mod _ 2
  rw [decode, hfield, ofBits_mod]

theorem code_ofBits (n : Nat) : (ofBits n).code = n % 4 := by
  have h : ∀ k < 4, (ofBits k).code = k := by decide
  rw [← ofBits_mod]
  exact h _ (Nat.mod_lt n (by decide))

theorem ofBits_eq {n : Nat} {e : Effect} (h : n % 4 = e.code) : ofBits n = e := by
  rw [← ofBits_mod, h, ofBits_code]

end Effect

namespace AluOp

theorem ofBits_mod (n : Nat) : ofBits (n % 16) = ofBits n := by rw [ofBits, ofBits, Nat.mod_mod]

theorem code_ofBits (n : Nat) : (ofBits n).code = n % 16 := by
  have h : ∀ k < 16, (ofBits k).code = k := by decide
  rw [← ofBits_mod]
  exact h _ (Nat.mod_lt n (by decide))

theorem ofBits_eq {n : Nat} {op : AluOp} (h : n % 16 = op.code) : ofBits n = op := by
  rw [← ofBits_mod, h, ofBits_code]

end AluOp

namespace Source

theorem ofSelector_mod (n : Nat) : ofSelector (n % 8) = ofSelector n := by
  rw [ofSelector, ofSelector, Nat.mod_mod]

theorem selector_ofSelector (n : Nat) : (ofSelector n).selector = n % 8 := by
  have h : ∀ k < 8, (ofSelector k).selector = k := by decide
  rw [← ofSelector_mod]
  exact h _ (Nat.mod_lt n (by decide))

theorem ofSelector_eq {n : Nat} {s : Source} (h : n % 8 = s.selector) : ofSelector n = s := by
  rw [← ofSelector_mod, h, ofSelector_selector]

end Source

namespace Destination

theorem ofSelector_mod (n : Nat) : ofSelector (n % 8) = ofSelector n := by
  rw [ofSelector, ofSelector, Nat.mod_mod]

theorem selector_ofSelector (n : Nat) : (ofSelector n).selector = n % 8 := by
  have h : ∀ k < 8, (ofSelector k).selector = k := by decide
  rw [← ofSelector_mod]
  exact h _ (Nat.mod_lt n (by decide))

theorem ofSelector_eq {n : Nat} {d : Destination} (h : n % 8 = d.selector) : ofSelector n = d := by
  rw [← ofSelector_mod, h, ofSelector_selector]

end Destination

namespace Opcode

/-- The bits that name an operation. A copy has none. -/
def code : Opcode → Nat
  | copy => 0
  | compute op => op.code

/-- The opcode held in a word. -/
def ofNat (n : Nat) : Opcode := if n < 32768 then .copy else .compute (.ofBits n)

theorem code_lt (o : Opcode) : o.code < 2 ^ Layout.shift o.cls := by
  cases o with
  | copy => decide
  | compute op => exact op.code_lt

/-- The class bit of an opcode. -/
def bit : Opcode → Nat
  | copy => 0
  | compute _ => 1

theorem bit_le (o : Opcode) : o.bit ≤ 1 := by cases o <;> simp [bit]

theorem ofNat_eq {n : Nat} {o : Opcode} (hn : n < 65536) (hbit : n / 32768 = o.bit)
    (hcode : n % 2 ^ Layout.shift o.cls = o.code) : ofNat n = o := by
  cases o with
  | copy =>
    simp only [bit] at hbit
    exact if_pos (by omega)
  | compute op =>
    simp only [bit] at hbit
    rw [ofNat, if_neg (by omega), AluOp.ofBits_eq hcode]

theorem bit_ofNat {n : Nat} (hn : n < 65536) : (ofNat n).bit = n / 32768 := by
  rw [ofNat]
  split <;> simp only [bit] <;> omega

theorem code_ofNat (n : Nat) : (ofNat n).code = n % 2 ^ Layout.shift (ofNat n).cls := by
  rw [ofNat]
  split
  · simp [code, cls, Layout.shift, Nat.mod_one]
  · exact AluOp.code_ofBits n

end Opcode

namespace Inst

/-! ### The payload -/

/-- What has a word of its own: immediates that fit, and no push without a pointer to move. -/
structure Legal (i : Inst) : Prop where
  srcImm_mem : i.srcImm ∈ i.layout.sourceRange
  dstImm_mem : i.dstImm ∈ i.layout.destinationRange
  hasMem_of_push : i.push = true → i.hasMem = true

instance (i : Inst) : Decidable i.Legal :=
  decidable_of_iff (i.srcImm ∈ i.layout.sourceRange ∧ i.dstImm ∈ i.layout.destinationRange ∧
      (i.push = true → i.hasMem = true))
    ⟨fun h => ⟨h.1, h.2.1, h.2.2⟩, fun h => ⟨h.1, h.2, h.3⟩⟩

/-- The operation and the immediates of an instruction, which fill the bits below the push bit, or
take that one as well where there is nothing to push or pop. -/
def payload (i : Inst) : Nat :=
  i.layout.field i.srcImm i.dstImm * 2 ^ Layout.shift i.cls + i.opcode.code

/-- The number of values that the payload may have. -/
def payloadSize (i : Inst) : Nat := if i.hasMem then 64 else 128

/-- The push bit of an instruction in its place. -/
def pushBit (i : Inst) : Nat := if i.push && i.hasMem then 64 else 0

theorem payloadSize_eq (i : Inst) :
    i.payloadSize = 2 ^ Layout.shift i.cls * Word.patterns i.layout.width := by
  have h := Layout.width_add_shift i.cls i.src i.dst
  rw [Word.patterns_eq]
  change _ = _ * 2 ^ i.layout.width
  rw [← Nat.pow_add, Nat.add_comm, Instruction.layout, h, payloadSize, Instruction.hasMem]
  split <;> rfl

theorem payload_mod (i : Inst) : i.payload % 2 ^ Layout.shift i.cls = i.opcode.code := by
  rw [payload, Nat.add_comm, Nat.add_mul_mod_self_right]
  exact Nat.mod_eq_of_lt i.opcode.code_lt

theorem payload_div (i : Inst) :
    i.payload / 2 ^ Layout.shift i.cls = i.layout.field i.srcImm i.dstImm := by
  have hcode : i.opcode.code < 2 ^ Layout.shift i.cls := i.opcode.code_lt
  rw [payload, Nat.add_comm, Nat.add_mul_div_right _ _ (Nat.two_pow_pos _),
    Nat.div_eq_of_lt hcode, Nat.zero_add]

theorem payload_lt (i : Inst) : i.payload < i.payloadSize := by
  rw [payloadSize_eq, Nat.mul_comm, ← Nat.div_lt_iff_lt_mul (Nat.two_pow_pos _), payload_div]
  exact i.layout.field_lt i.srcImm i.dstImm

theorem pushBit_of_hasMem {i : Inst} (h : i.hasMem = true) :
    i.pushBit = if i.push then 64 else 0 := by
  simp [pushBit, h]

theorem pushBit_of_not_hasMem {i : Inst} (h : i.hasMem = false) : i.pushBit = 0 := by
  simp [pushBit, h]

theorem pushBit_add_payload_lt (i : Inst) : i.pushBit + i.payload < 128 := by
  have hp := i.payload_lt
  rw [payloadSize] at hp
  rw [pushBit]
  cases h : i.hasMem with
  | true =>
    simp only [h, if_true] at hp
    split <;> omega
  | false => simpa [h] using hp

/-- The low bits of a word, below those of its operands. -/
theorem toNat_low (i : Inst) :
    (UInt16.ofNat i.pushBit
      ||| (i.layout.pack i.cls i.srcImm i.dstImm ||| UInt16.ofNat i.opcode.code)).toNat
      = i.pushBit + i.payload := by
  have hcode : i.opcode.code < 2 ^ Layout.shift i.cls := i.opcode.code_lt
  have hshift : 2 ^ Layout.shift i.cls ≤ 2 ^ 4 :=
    Nat.pow_le_pow_right (by decide) (Layout.shift_le i.cls)
  have hpack : (i.layout.pack i.cls i.srcImm i.dstImm).toNat
      = i.layout.field i.srcImm i.dstImm * 2 ^ Layout.shift i.cls :=
    Layout.toNat_pack (Layout.width_le_seven i.cls i.src i.dst) i.cls i.srcImm i.dstImm
  have hword : (UInt16.ofNat i.opcode.code : Word).toNat = i.opcode.code :=
    Word.toNat_ofNat_of_lt (by omega)
  have hpayload : (i.layout.pack i.cls i.srcImm i.dstImm
      ||| UInt16.ofNat i.opcode.code : Word).toNat = i.payload := by
    rw [Word.toNat_or (Layout.shift i.cls) (by rw [hpack]; exact Nat.mul_mod_left _ _)
      (by rw [hword]; exact hcode), hpack, hword]
    rfl
  have hlt := i.payload_lt
  rw [payloadSize] at hlt
  cases hmem : i.hasMem with
  | true =>
    have hpush : (UInt16.ofNat i.pushBit : Word).toNat = i.pushBit ∧ i.pushBit % 2 ^ 6 = 0 := by
      rw [pushBit_of_hasMem hmem]
      cases i.push <;> decide
    rw [if_pos hmem] at hlt
    rw [Word.toNat_or 6 (by rw [hpush.1]; exact hpush.2) (by rw [hpayload]; exact hlt), hpush.1,
      hpayload]
  | false =>
    rw [pushBit_of_not_hasMem hmem, Nat.zero_add, ← hpayload]
    exact congrArg UInt16.toNat UInt16.zero_or

/-- The fields of a word from the top down. -/
theorem encode_eq_or (i : Inst) :
    encode i = UInt16.ofNat i.opcode.bit <<< 15 ||| i.effect.encode
      ||| UInt16.ofNat i.dst.selector <<< 10 ||| UInt16.ofNat i.src.selector <<< 7
      ||| (UInt16.ofNat i.pushBit
        ||| (i.layout.pack i.cls i.srcImm i.dstImm ||| UInt16.ofNat i.opcode.code)) := by
  have hpush : (UInt16.ofNat i.pushBit : Word) = if i.push && i.hasMem then 0x0040 else 0 := by
    rw [pushBit]
    split <;> rfl
  rw [hpush, encode]
  cases i.opcode with
  | copy =>
    change 0 ||| _ ||| _ ||| _ ||| _ ||| _ = 0 ||| _ ||| _ ||| _ ||| (_ ||| (_ ||| 0))
    rw [UInt16.or_zero, UInt16.or_assoc]
  | compute op =>
    change 0x8000 ||| UInt16.ofNat op.code ||| _ ||| _ ||| _ ||| _ ||| _ =
      0x8000 ||| _ ||| _ ||| _ ||| (_ ||| (_ ||| UInt16.ofNat op.code))
    ac_rfl

/-- The word of an instruction, by its fields. -/
theorem toNat_encode (i : Inst) :
    (encode i).toNat = 32768 * i.opcode.bit + 8192 * i.effect.code + 1024 * i.dst.selector
      + 128 * i.src.selector + i.pushBit + i.payload := by
  have hb := i.opcode.bit_le
  have he := i.effect.code_lt
  have hd := i.dst.selector_lt
  have hs := i.src.selector_lt
  have hp := i.pushBit_add_payload_lt
  have hbit : (UInt16.ofNat i.opcode.bit <<< 15 : Word).toNat = i.opcode.bit * 32768 :=
    Word.toNat_ofNat_shiftLeft 15 (by decide) (by omega)
  have hdst : (UInt16.ofNat i.dst.selector <<< 10 : Word).toNat = i.dst.selector * 1024 :=
    Word.toNat_ofNat_shiftLeft 10 (by decide) (by omega)
  have hsrc : (UInt16.ofNat i.src.selector <<< 7 : Word).toNat = i.src.selector * 128 :=
    Word.toNat_ofNat_shiftLeft 7 (by decide) (by omega)
  have heffect := i.effect.toNat_encode
  have hlow := i.toNat_low
  -- from the top down, every field lies below the ones in front of it
  have htop : (UInt16.ofNat i.opcode.bit <<< 15 ||| i.effect.encode : Word).toNat
      = i.opcode.bit * 32768 + i.effect.code * 8192 := by
    rw [Word.toNat_or 15 (by omega) (by omega), hbit, heffect]
  have hmiddle : (UInt16.ofNat i.opcode.bit <<< 15 ||| i.effect.encode
      ||| UInt16.ofNat i.dst.selector <<< 10 : Word).toNat
      = i.opcode.bit * 32768 + i.effect.code * 8192 + i.dst.selector * 1024 := by
    rw [Word.toNat_or 13 (by omega) (by omega), htop, hdst]
  have hhigh : (UInt16.ofNat i.opcode.bit <<< 15 ||| i.effect.encode
      ||| UInt16.ofNat i.dst.selector <<< 10 ||| UInt16.ofNat i.src.selector <<< 7 : Word).toNat
      = i.opcode.bit * 32768 + i.effect.code * 8192 + i.dst.selector * 1024
        + i.src.selector * 128 := by
    rw [Word.toNat_or 10 (by omega) (by omega), hmiddle, hsrc]
  rw [encode_eq_or, Word.toNat_or 7 (by omega) (by omega), hhigh, hlow]
  omega

/-! ### Reading the fields -/

theorem unpack_eq_values (i : Inst) (w : Word) :
    i.layout.unpack i.cls w = i.layout.values (w.toNat / 2 ^ Layout.shift i.cls) :=
  Layout.unpack_eq (Layout.width_pos i.cls i.src i.dst) (Layout.width_le_seven i.cls i.src i.dst)
    i.cls w

theorem opcode_decode (w : Word) : (decode w).opcode = .ofNat w.toNat := by
  have hbit : w &&& 0x8000 ≠ 0 ↔ w.toNat / 32768 % 2 = 1 := by
    refine (Word.and_bit_ne_zero_iff w (by decide : 15 < 16)).trans ?_
    rw [Nat.testBit_eq_decide_div_mod_eq, decide_eq_true_eq]
  have hcode : (w &&& 0x000F).toNat = w.toNat % 16 :=
    Word.toNat_and_mask w (by decide : 4 < 16)
  have hlt := Word.toNat_lt w
  change (if w &&& 0x8000 == 0 then Opcode.copy else _) = _
  rw [hcode, AluOp.ofBits_mod, Opcode.ofNat]
  by_cases htop : w &&& 0x8000 = 0
  · have hlow : w.toNat < 32768 := by
      have := mt hbit.mpr (not_not_intro htop)
      omega
    rw [if_pos (beq_iff_eq.mpr htop), if_pos hlow]
  · have hhigh := hbit.mp htop
    rw [if_neg (fun h => htop (beq_iff_eq.mp h)), if_neg (by omega)]

theorem src_decode (w : Word) : (decode w).src = .ofSelector (w.toNat / 128) :=
  congrArg Source.ofSelector (Word.toNat_shiftRight w (by decide : 7 < 16))

theorem dst_decode (w : Word) : (decode w).dst = .ofSelector (w.toNat / 1024) :=
  congrArg Destination.ofSelector (Word.toNat_shiftRight w (by decide : 10 < 16))

theorem effect_decode (w : Word) : (decode w).effect = .ofBits (w.toNat / 8192) :=
  Effect.decode_eq_ofBits w

theorem push_decode (w : Word) :
    (decode w).push = ((decode w).hasMem && w.toNat / 64 % 2 == 1) := by
  have hbit : (w &&& 0x0040 != 0) = (w.toNat / 64 % 2 == 1) := by
    have h := Word.and_bit_ne_zero_iff w (by decide : 6 < 16)
    rw [Nat.testBit_eq_decide_div_mod_eq, decide_eq_true_eq] at h
    rw [Bool.eq_iff_iff, bne_iff_ne, beq_iff_eq]
    exact h
  exact congrArg ((decode w).hasMem && ·) hbit

/-- The payload is what the low bits hold besides the push bit. -/
theorem mod_payloadSize {i : Inst} {n : Nat} (h : n % 128 = i.pushBit + i.payload) :
    n % i.payloadSize = i.payload := by
  have hlt := i.payload_lt
  cases hmem : i.hasMem with
  | true =>
    rw [pushBit_of_hasMem hmem] at h
    simp only [payloadSize, hmem, if_true] at hlt ⊢
    split at h <;> omega
  | false =>
    rw [pushBit_of_not_hasMem hmem] at h
    simp only [payloadSize, hmem, Bool.false_eq_true, if_false]
    omega

/-- The push of a legal instruction is the bit above its payload, where that is no part of it. -/
theorem push_of_low {i : Inst} (hi : i.Legal) {n : Nat} (h : n % 128 = i.pushBit + i.payload) :
    (i.hasMem && n / 64 % 2 == 1) = i.push := by
  have hlt := i.payload_lt
  cases hmem : i.hasMem with
  | true =>
    rw [pushBit_of_hasMem hmem] at h
    simp only [payloadSize, hmem, if_true] at hlt
    cases hp : i.push <;> simp only [hp, if_true, Bool.false_eq_true, if_false] at h <;>
      simp <;> omega
  | false =>
    cases hp : i.push with
    | true => rw [hi.hasMem_of_push hp] at hmem; cases hmem
    | false => rfl

/-- The code of the operation is the low part of the payload. -/
theorem code_of_payload {i : Inst} {n : Nat} (h : n % i.payloadSize = i.payload) :
    n % 2 ^ Layout.shift i.cls = i.opcode.code := by
  rw [← i.payload_mod, ← h, i.payloadSize_eq, Nat.mod_mul_right_mod]

/-- The immediates of a legal instruction are read from the high part of the payload. -/
theorem unpack_of_payload {i : Inst} (hi : i.Legal) {w : Word}
    (h : w.toNat % i.payloadSize = i.payload) :
    i.layout.unpack i.cls w = (i.srcImm, i.dstImm) := by
  have hfield : (w.toNat / 2 ^ Layout.shift i.cls) % Word.patterns i.layout.width
      = i.layout.field i.srcImm i.dstImm := by
    rw [← i.payload_div, ← h, i.payloadSize_eq, Nat.mod_mul_right_div_self]
  rw [i.unpack_eq_values]
  exact Layout.values_eq (Layout.width_pos i.cls i.src i.dst) hi.srcImm_mem hi.dstImm_mem hfield

/-! ### The two round trips -/

/-- A word decodes to the legal instruction whose fields it holds. -/
theorem decode_eq {w : Word} {i : Inst} (hi : i.Legal) (hbit : w.toNat / 32768 = i.opcode.bit)
    (heffect : w.toNat / 8192 % 4 = i.effect.code) (hdst : w.toNat / 1024 % 8 = i.dst.selector)
    (hsrc : w.toNat / 128 % 8 = i.src.selector) (hlow : w.toNat % 128 = i.pushBit + i.payload) :
    decode w = i := by
  have hpayload := mod_payloadSize hlow
  have hpush := push_of_low hi hlow
  have hopcode : (decode w).opcode = i.opcode :=
    (opcode_decode w).trans (Opcode.ofNat_eq (Word.toNat_lt w) hbit (code_of_payload hpayload))
  have hsource : (decode w).src = i.src := (src_decode w).trans (Source.ofSelector_eq hsrc)
  have hdestination : (decode w).dst = i.dst :=
    (dst_decode w).trans (Destination.ofSelector_eq hdst)
  have himms : (decode w).layout.unpack (decode w).cls w = (i.srcImm, i.dstImm) := by
    rw [Instruction.layout, Instruction.cls, hopcode, hsource, hdestination]
    exact unpack_of_payload hi hpayload
  refine Instruction.ext hopcode hsource hdestination (congrArg Prod.fst himms)
    (congrArg Prod.snd himms) ((effect_decode w).trans (Effect.ofBits_eq heffect)) ?_
  rw [push_decode, Instruction.hasMem, hsource, hdestination]
  exact hpush

/-- **A legal instruction survives its encoding.** -/
theorem decode_encode {i : Inst} (hi : i.Legal) : decode (encode i) = i := by
  have hword := i.toNat_encode
  have hb := i.opcode.bit_le
  have he := i.effect.code_lt
  have hd := i.dst.selector_lt
  have hs := i.src.selector_lt
  have hp := i.pushBit_add_payload_lt
  refine decode_eq hi ?_ ?_ ?_ ?_ ?_ <;> omega

/-- Every word stands for a legal instruction. -/
theorem legal_decode (w : Word) : (decode w).Legal := by
  have hmem := Layout.values_mem (Layout.width_pos (decode w).cls (decode w).src (decode w).dst)
    (w.toNat / 2 ^ Layout.shift (decode w).cls)
  rw [← Instruction.layout, ← unpack_eq_values] at hmem
  refine ⟨hmem.1, hmem.2, fun hp => ?_⟩
  rw [push_decode, Bool.and_eq_true] at hp
  exact hp.1

theorem payload_decode (w : Word) :
    (decode w).payload = w.toNat % (decode w).payloadSize := by
  have hcode : (decode w).opcode.code = w.toNat % 2 ^ Layout.shift (decode w).cls := by
    rw [Instruction.cls, opcode_decode]
    exact Opcode.code_ofNat w.toNat
  have hfield : (decode w).layout.field (decode w).srcImm (decode w).dstImm
      = w.toNat / 2 ^ Layout.shift (decode w).cls % Word.patterns (decode w).layout.width := by
    rw [← Layout.field_values, ← unpack_eq_values]
    rfl
  rw [payload, hcode, hfield, payloadSize_eq, Nat.mod_mul]
  rw [Nat.mul_comm, Nat.add_comm]

theorem pushBit_add_payload_decode (w : Word) :
    (decode w).pushBit + (decode w).payload = w.toNat % 128 := by
  rw [payload_decode, payloadSize]
  cases hmem : (decode w).hasMem with
  | true =>
    rw [pushBit_of_hasMem hmem, push_decode, hmem]
    simp only [Bool.true_and, beq_iff_eq, if_true]
    split <;> omega
  | false => simp [pushBit_of_not_hasMem hmem]

/-- **A word is the word of what it stands for.** -/
theorem encode_decode (w : Word) : encode (decode w) = w := by
  have hbit : (decode w).opcode.bit = w.toNat / 32768 := by
    rw [opcode_decode, Opcode.bit_ofNat (Word.toNat_lt w)]
  have heffect : (decode w).effect.code = w.toNat / 8192 % 4 := by
    rw [effect_decode, Effect.code_ofBits]
  have hdst : (decode w).dst.selector = w.toNat / 1024 % 8 := by
    rw [dst_decode, Destination.selector_ofSelector]
  have hsrc : (decode w).src.selector = w.toNat / 128 % 8 := by
    rw [src_decode, Source.selector_ofSelector]
  have hlow := pushBit_add_payload_decode w
  have hlt := Word.toNat_lt w
  apply UInt16.toNat_inj.mp
  rw [toNat_encode, hbit, heffect, hdst, hsrc]
  omega

end Inst

end WordMachine
