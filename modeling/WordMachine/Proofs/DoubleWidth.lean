import Mathlib.Data.Nat.Bitwise
import WordMachine.Alu
import WordMachine.Proofs.Codec
import WordMachine.Proofs.Execution

/-!
# Results in double width

The arithmetic unit hands back two words, and one of them on top of the other is a number of 32
bits. Sums, differences and products have room there, whatever the operands and whatever the mode,
so nothing of them is lost. This file says which number it is that the two words make
(`AluResult.number`), and when the lower word would have been enough.

## From bits to integers

A sum and a product are computed in 32 bits, and the two words of the result are these bits
(`Alu.join_highWord_lowWord`). So what is left to say is about the bits: they stand for the integer
that they should, since neither a sum nor a product of two words goes beyond 32 bits, and the unit
looks at them in the right way to find out whether one word is enough. How it looks differs between
the modes, and so there is one lemma for each of them. A difference without signs is a path of its
own, in which no bit is ever widened: it may lie below zero, so it has a sign in double width even
though its operands have none.

## Main results

* `Alu.reading_ofInt_eq_iff`: which integers a single word can stand for
* `Alu.isExact_ofUnsigned`, `Alu.isExact_ofSigned`: 32 bits cut in two are what they were
* `Alu.isExact_add`, `Alu.isExact_sub`, `Alu.isExact_mul`: the three operations in either mode
* `Alu.eval_exact`: sums, differences, products and shifts in double width, and their flags
-/

namespace WordMachine

/-! ### One word on top of another -/

namespace Word

/-- The number of 32 bits with one word on top of another. -/
def join (high low : Word) : BitVec 32 := high.toBitVec ++ low.toBitVec

theorem toNat_join (high low : Word) :
    (join high low).toNat = high.toNat * 65536 + low.toNat := by
  have hlow : low.toBitVec.toNat < 2 ^ 16 := toNat_lt low
  rw [join, BitVec.toNat_append, ← Nat.shiftLeft_add_eq_or_of_lt hlow, Nat.shiftLeft_eq]
  rfl

/-- The reading in two's complement is the residue that lies nearest to zero. -/
theorem signed_ofInt (i : Int) : signed (ofInt i) = Int.bmod i 65536 := by
  have hresidue : ((ofInt i).toNat : Int) = i % (65536 : Nat) := by
    rw [toNat_ofInt]
    omega
  unfold signed
  rw [hresidue, Int.emod_bmod]

end Word

/-! ### What a word stands for -/

namespace Range

theorem mem_ofBits_sixteen_true {i : Int} : i ∈ ofBits 16 true ↔ -32768 ≤ i ∧ i < 32768 :=
  mem_ofBits_true

theorem mem_ofBits_sixteen_false {i : Int} : i ∈ ofBits 16 false ↔ 0 ≤ i ∧ i < 65536 :=
  mem_ofBits_false

theorem mem_ofBits_double_true {i : Int} :
    i ∈ ofBits 32 true ↔ -2147483648 ≤ i ∧ i < 2147483648 :=
  mem_ofBits_true

theorem mem_ofBits_double_false {i : Int} : i ∈ ofBits 32 false ↔ 0 ≤ i ∧ i < 4294967296 :=
  mem_ofBits_false

end Range

namespace Alu

/-- The integer that a word stands for. -/
def reading (isSigned : Bool) (w : Word) : Int := if isSigned then Word.signed w else w.toNat

@[simp] theorem reading_true (w : Word) : reading true w = Word.signed w := if_pos rfl

@[simp] theorem reading_false (w : Word) : reading false w = w.toNat :=
  if_neg Bool.false_ne_true

theorem ofInt_reading (isSigned : Bool) (w : Word) : Word.ofInt (reading isSigned w) = w := by
  cases isSigned <;> simp [reading]

theorem reading_mem (isSigned : Bool) (w : Word) :
    reading isSigned w ∈ Range.ofBits 16 isSigned := by
  cases isSigned with
  | true =>
    rw [reading_true, Range.mem_ofBits_sixteen_true]
    exact ⟨Int.le_bmod (by decide), Int.bmod_lt (by decide)⟩
  | false =>
    have hlt := Word.toNat_lt w
    rw [reading_false, Range.mem_ofBits_sixteen_false]
    omega

/-- A word stands for every integer that fits into it, and for no other. -/
theorem reading_ofInt_eq_iff {isSigned : Bool} {i : Int} :
    reading isSigned (Word.ofInt i) = i ↔ i ∈ Range.ofBits 16 isSigned := by
  constructor
  · intro h
    rw [← h]
    exact reading_mem isSigned _
  · intro h
    cases isSigned with
    | true =>
      obtain ⟨hlow, hhigh⟩ := Range.mem_ofBits_sixteen_true.mp h
      rw [reading_true, Word.signed_ofInt]
      exact Int.bmod_eq_of_le hlow hhigh
    | false =>
      obtain ⟨hlow, hhigh⟩ := Range.mem_ofBits_sixteen_false.mp h
      rw [reading_false, Word.toNat_ofInt]
      omega

end Alu

/-! ### Results -/

namespace AluResult

/-- All of a result, with what it spills on top. -/
def double (r : AluResult) : BitVec 32 := Word.join r.spill r.val

/-- The integer that a result stands for in double width, with a sign or without. -/
def number (asSigned : Bool) (r : AluResult) : Int :=
  if asSigned then r.double.toInt else r.double.toNat

/-- A result is the given integer. It stands for it in double width, read with a sign or without,
and it has overflown if there is no single word of the mode for it. -/
structure IsExact (r : AluResult) (isSigned asSigned : Bool) (exact : Int) : Prop where
  number_eq : r.number asSigned = exact
  overflow_iff : r.flags.overflow = true ↔ exact ∉ Range.ofBits 16 isSigned

end AluResult

namespace Alu

/-! ### Cutting 32 bits in two -/

theorem toNat_lowWord (wide : UInt32) : (lowWord wide).toNat = wide.toNat % 65536 :=
  UInt32.toNat_toUInt16 wide

theorem toNat_highWord (wide : UInt32) : (highWord wide).toNat = wide.toNat / 65536 := by
  have hlt : wide.toNat < 4294967296 := wide.toNat_lt
  have hshift : (wide >>> 16).toNat = wide.toNat >>> 16 := UInt32.toNat_shiftRight wide 16
  rw [highWord, UInt32.toNat_toUInt16, hshift, Nat.shiftRight_eq_div_pow]
  omega

/-- The two halves are all there is. -/
theorem join_highWord_lowWord (wide : UInt32) :
    Word.join (highWord wide) (lowWord wide) = wide.toBitVec := by
  apply BitVec.eq_of_toNat_eq
  rw [Word.toNat_join, toNat_highWord, toNat_lowWord]
  exact Nat.div_add_mod' wide.toNat 65536

theorem lowWord_eq_ofInt (wide : UInt32) : lowWord wide = Word.ofInt wide.toNat := by
  apply UInt16.toNat_inj.mp
  rw [toNat_lowWord, Word.toNat_ofInt]
  omega

theorem toInt_widen (w : Word) : (widen w).toInt = reading true w := by
  rw [widen, Int16.toInt_toInt32, reading_true]
  exact BitVec.toInt_eq_toNat_bmod _

/-- The low word of a number with a sign is its residue. -/
theorem lowWord_toUInt32 (wide : Int32) : lowWord wide.toUInt32 = Word.ofInt wide.toInt := by
  have htoInt : wide.toInt = Int.bmod wide.toUInt32.toNat 4294967296 :=
    BitVec.toInt_eq_toNat_bmod _
  rw [lowWord_eq_ofInt, Word.ofInt_eq_iff, htoInt]
  unfold Int.bmod
  dsimp only
  split <;> omega

/-- 32 bits without a sign are a result without a sign. -/
theorem isExact_ofUnsigned (wide : UInt32) :
    (ofUnsigned wide).IsExact false false wide.toNat where
  number_eq := by
    rw [AluResult.number, AluResult.double, ofUnsigned, AluResult.of, join_highWord_lowWord]
    rfl
  overflow_iff := by
    have hflag : (ofUnsigned wide).flags.overflow = true ↔ 65535 < wide.toNat :=
      decide_eq_true_iff.trans UInt32.lt_iff_toNat_lt
    rw [hflag, Range.mem_ofBits_sixteen_false]
    omega

/-- 32 bits with a sign are a result with a sign. -/
theorem isExact_ofSigned (wide : Int32) : (ofSigned wide).IsExact true true wide.toInt where
  number_eq := by
    rw [AluResult.number, AluResult.double, ofSigned, AluResult.of, join_highWord_lowWord]
    rfl
  overflow_iff := by
    have hflag : (ofSigned wide).flags.overflow = true ↔
        wide ≠ widen (lowWord wide.toUInt32) := bne_iff_ne
    rw [hflag, ← reading_ofInt_eq_iff, ← lowWord_toUInt32, ← toInt_widen, Int32.toInt_inj, ne_comm]

section Operands

variable {isSigned : Bool} {x y : Int}
  (hx : x ∈ Range.ofBits 16 isSigned) (hy : y ∈ Range.ofBits 16 isSigned)

include hx hy

theorem add_mem_ofBits_double : x + y ∈ Range.ofBits 32 isSigned := by
  cases isSigned with
  | true =>
    rw [Range.mem_ofBits_sixteen_true] at hx hy
    rw [Range.mem_ofBits_double_true]
    omega
  | false =>
    rw [Range.mem_ofBits_sixteen_false] at hx hy
    rw [Range.mem_ofBits_double_false]
    omega

/-- Whether or not the operands have signs, their difference has one. -/
theorem sub_mem_ofBits_double : y - x ∈ Range.ofBits 32 true := by
  rw [Range.mem_ofBits_double_true]
  cases isSigned with
  | true =>
    rw [Range.mem_ofBits_sixteen_true] at hx hy
    omega
  | false =>
    rw [Range.mem_ofBits_sixteen_false] at hx hy
    omega

theorem mul_mem_ofBits_double : x * y ∈ Range.ofBits 32 isSigned := by
  have hproduct := Int.natAbs_mul x y
  cases isSigned with
  | true =>
    rw [Range.mem_ofBits_sixteen_true] at hx hy
    rw [Range.mem_ofBits_double_true]
    have hle : x.natAbs * y.natAbs ≤ 32768 * 32768 :=
      Nat.mul_le_mul (by omega) (by omega)
    omega
  | false =>
    rw [Range.mem_ofBits_sixteen_false] at hx hy
    rw [Range.mem_ofBits_double_false]
    have hle : x.natAbs * y.natAbs ≤ 65535 * 65535 :=
      Nat.mul_le_mul (by omega) (by omega)
    have hnonneg := Int.mul_nonneg hx.1 hy.1
    omega

end Operands

/-! ### The operations -/

/-- 32 bits hold every integer with a sign that has room there. -/
theorem bmod_double_of_mem {i : Int} (h : i ∈ Range.ofBits 32 true) :
    i.bmod (2 ^ 32) = i := by
  obtain ⟨hlow, hhigh⟩ := Range.mem_ofBits_double_true.mp h
  exact Int.bmod_eq_of_le hlow hhigh

/-- 32 bits hold every integer without a sign that has room there. -/
theorem natCast_mod_double_of_mem {n : Nat} (h : (n : Int) ∈ Range.ofBits 32 false) :
    ((n % 2 ^ 32 : Nat) : Int) = n := by
  have hlt := (Range.mem_ofBits_double_false.mp h).2
  rw [Nat.mod_eq_of_lt (by omega)]

section Exact

variable (isSigned : Bool) (a b : Word)

theorem toInt_widen_add : (widen a + widen b).toInt = reading true a + reading true b := by
  have hmem := add_mem_ofBits_double (reading_mem true a) (reading_mem true b)
  rw [Int32.toInt_add, toInt_widen, toInt_widen, bmod_double_of_mem hmem]

theorem isExact_add :
    (add isSigned a b).IsExact isSigned isSigned (reading isSigned a + reading isSigned b) := by
  cases isSigned with
  | true =>
    rw [← toInt_widen_add]
    exact isExact_ofSigned _
  | false =>
    have hmem := add_mem_ofBits_double (reading_mem false a) (reading_mem false b)
    have hsum : ((a.toUInt32 + b.toUInt32).toNat : Int) = reading false a + reading false b := by
      rw [reading_false, reading_false, ← Int.natCast_add] at hmem ⊢
      rw [UInt32.toNat_add, UInt16.toNat_toUInt32, UInt16.toNat_toUInt32,
        natCast_mod_double_of_mem hmem]
    rw [← hsum]
    exact isExact_ofUnsigned _

theorem isExact_mul :
    (mul isSigned a b).IsExact isSigned isSigned (reading isSigned a * reading isSigned b) := by
  have hmem := mul_mem_ofBits_double (reading_mem isSigned a) (reading_mem isSigned b)
  cases isSigned with
  | true =>
    have hproduct : (widen a * widen b).toInt = reading true a * reading true b := by
      rw [Int32.toInt_mul, toInt_widen, toInt_widen, bmod_double_of_mem hmem]
    rw [← hproduct]
    exact isExact_ofSigned _
  | false =>
    have hproduct : ((a.toUInt32 * b.toUInt32).toNat : Int)
        = reading false a * reading false b := by
      rw [reading_false, reading_false, ← Int.natCast_mul] at hmem ⊢
      rw [UInt32.toNat_mul, UInt16.toNat_toUInt32, UInt16.toNat_toUInt32,
        natCast_mod_double_of_mem hmem]
    rw [← hproduct]
    exact isExact_ofUnsigned _

/-- A difference without signs. The word on top is a borrow: all ones, and so minus `2 ^ 16`. -/
theorem isExact_sub_false :
    (sub false a b).IsExact false true (reading false b - reading false a) where
  number_eq := by
    have ha := Word.toNat_lt a
    have hb := Word.toNat_lt b
    have hval : (b - a).toNat = (65536 - a.toNat + b.toNat) % 65536 := UInt16.toNat_sub b a
    have hiff : b < a ↔ b.toNat < a.toNat := UInt16.lt_iff_toNat_lt
    rw [AluResult.number, if_pos rfl, BitVec.toInt_eq_toNat_bmod, AluResult.double,
      Word.toNat_join, reading_false, reading_false]
    by_cases h : b.toNat < a.toNat
    · have hspill : (sub false a b).spill = 0xFFFF := if_pos (hiff.mpr h)
      have hones : (0xFFFF : Word).toNat = 65535 := rfl
      have hdouble : (((65535 * 65536 + (b - a).toNat : Nat) : Int)) =
          (b.toNat : Int) - a.toNat + (2 ^ 32 : Nat) := by omega
      have hroom : (b.toNat : Int) - a.toNat ∈ Range.ofBits 32 true :=
        Range.mem_ofBits_double_true.mpr (by omega)
      rw [hspill, hones]
      exact (congrArg (Int.bmod · (2 ^ 32)) hdouble).trans
        ((Int.add_bmod_right _ _).trans (bmod_double_of_mem hroom))
    · have hspill : (sub false a b).spill = 0 := if_neg (mt hiff.mp h)
      have hdouble : (((0 * 65536 + (b - a).toNat : Nat) : Int)) = (b.toNat : Int) - a.toNat := by
        omega
      have hroom : (b.toNat : Int) - a.toNat ∈ Range.ofBits 32 true :=
        Range.mem_ofBits_double_true.mpr (by omega)
      rw [hspill]
      exact (congrArg (Int.bmod · (2 ^ 32)) hdouble).trans (bmod_double_of_mem hroom)
  overflow_iff := by
    have ha := Word.toNat_lt a
    have hb := Word.toNat_lt b
    have hflag : (sub false a b).flags.overflow = true ↔ b.toNat < a.toNat :=
      decide_eq_true_iff.trans UInt16.lt_iff_toNat_lt
    rw [hflag, Range.mem_ofBits_sixteen_false, reading_false, reading_false]
    omega

theorem isExact_sub :
    (sub isSigned a b).IsExact isSigned true (reading isSigned b - reading isSigned a) := by
  cases isSigned with
  | true =>
    have hmem := sub_mem_ofBits_double (reading_mem true a) (reading_mem true b)
    have hdifference : (widen b - widen a).toInt = reading true b - reading true a := by
      rw [Int32.toInt_sub, toInt_widen, toInt_widen, bmod_double_of_mem hmem]
    rw [← hdifference]
    exact isExact_ofSigned _
  | false => exact isExact_sub_false a b

end Exact

/-- The lower word of a sum is the sum of the words, in either mode. -/
theorem val_add (isSigned : Bool) (a b : Word) : (add isSigned a b).val = a + b := by
  cases isSigned with
  | true =>
    have hval : (add true a b).val = Word.ofInt (widen a + widen b).toInt := lowWord_toUInt32 _
    rw [hval, toInt_widen_add, Word.ofInt_add, ofInt_reading, ofInt_reading]
  | false =>
    have hval : (add false a b).val = lowWord (a.toUInt32 + b.toUInt32) := rfl
    rw [hval, lowWord, UInt32.toUInt16_add, UInt16.toUInt16_toUInt32, UInt16.toUInt16_toUInt32]

theorem val_eval_addc (a b spill : Word) (isSigned : Bool) :
    (eval .addc a b spill isSigned).val = a + spill := val_add isSigned a spill

/-- Nothing is lost of a number that is shifted up but what 32 bits have no room for. -/
theorem toNat_double_shl (a b : Word) :
    (shl a b).double.toNat = b.toNat * 2 ^ a.toNat % 2 ^ 32 := by
  have hiff : 32 ≤ a ↔ 32 ≤ a.toNat := UInt16.le_iff_toNat_le
  rw [shl]
  by_cases h : 32 ≤ a.toNat
  · have hdvd : 2 ^ 32 ∣ b.toNat * 2 ^ a.toNat :=
      Nat.dvd_mul_left_of_dvd (Nat.pow_dvd_pow 2 h) _
    rw [if_pos (hiff.mpr h), Nat.mod_eq_zero_of_dvd hdvd]
    rfl
  · have hmod : a.toUInt32.toNat % 32 = a.toNat := by
      rw [UInt16.toNat_toUInt32]
      omega
    rw [if_neg (mt hiff.mp h), AluResult.double, AluResult.of, join_highWord_lowWord,
      UInt32.toNat_toBitVec, UInt32.toNat_shiftLeft, hmod, UInt16.toNat_toUInt32, Nat.shiftLeft_eq]

/-! ### Flags -/

/-- Whatever is computed, two of the flags are those of the lower word. -/
theorem flags_eval (op : AluOp) (a b spill : Word) (isSigned : Bool) :
    (eval op a b spill isSigned).flags =
      .ofResult (eval op a b spill isSigned).val (eval op a b spill isSigned).flags.overflow := by
  cases op with
  | add | addc | sub | mul => cases isSigned <;> rfl
  | div =>
    simp only [eval, div]
    split
    · rfl
    · cases isSigned <;> rfl
  | shl =>
    simp only [eval, shl]
    split <;> rfl
  | shr =>
    simp only [eval, shr]
    split <;> rfl
  | _ => rfl

theorem zero_eval_iff (op : AluOp) (a b spill : Word) (isSigned : Bool) :
    (eval op a b spill isSigned).flags.zero = true ↔ (eval op a b spill isSigned).val = 0 := by
  rw [flags_eval]
  exact beq_iff_eq

theorem negative_eval_iff (op : AluOp) (a b spill : Word) (isSigned : Bool) :
    (eval op a b spill isSigned).flags.negative = true ↔
      (eval op a b spill isSigned).val.toNat.testBit 15 = true := by
  rw [flags_eval]
  exact bne_iff_ne.trans (Word.and_bit_ne_zero_iff _ (by decide : 15 < 16))

/-- **Results are exact in double width.** A sum, a difference and a product are the integers that
they should be, with what was spilled on top; so is the sum with what was spilled before, which is
the sum with any other word. What is shifted up is only cut off at 32 bits. Sums, differences and
products overflow if a single word has no room for them, and the other two flags are about the lower
word of whatever is computed. -/
theorem eval_exact (a b spill : Word) (isSigned : Bool) :
    (eval .add a b spill isSigned).IsExact isSigned isSigned
      (reading isSigned a + reading isSigned b) ∧
    (eval .sub a b spill isSigned).IsExact isSigned true
      (reading isSigned b - reading isSigned a) ∧
    (eval .mul a b spill isSigned).IsExact isSigned isSigned
      (reading isSigned a * reading isSigned b) ∧
    (eval .addc a b spill isSigned).IsExact isSigned isSigned
      (reading isSigned a + reading isSigned spill) ∧
    (∀ other, eval .addc a b spill isSigned = eval .add a spill other isSigned) ∧
    (eval .shl a b spill isSigned).double.toNat = b.toNat * 2 ^ a.toNat % 2 ^ 32 ∧
    ∀ op,
      ((eval op a b spill isSigned).flags.zero = true ↔ (eval op a b spill isSigned).val = 0) ∧
      ((eval op a b spill isSigned).flags.negative = true ↔
        (eval op a b spill isSigned).val.toNat.testBit 15 = true) := by
  refine ⟨isExact_add isSigned a b, isExact_sub isSigned a b, isExact_mul isSigned a b,
    isExact_add isSigned a spill, fun other => rfl, toNat_double_shl a b, ?_⟩
  · intro op
    exact ⟨zero_eval_iff op a b spill isSigned, negative_eval_iff op a b spill isSigned⟩

/-- One less two lies below zero also where words have no signs. -/
example : (eval .sub 2 1 0 false).number true = -1 := by decide

end Alu

end WordMachine
