import WordMachine.Proofs.DoubleWidth

/-!
# Shifts across two words

A number of 32 bits in two words is shifted down by a program in three operations. The upper word
is shifted, which spills the bits that it loses. The lower word is shifted, and in the end what the
upper one spilled is added to it. The bits that are spilled stand where the lower word has become
empty, so the addition never carries.

For the upper word this is right by any amount and in either mode. For the lower word it is right as
well, as long as no copies of the sign are due there. A negative number that is shifted by more than
a word sends them further down than the upper word, but what is spilled is taken from the bits of
the upper word alone. So zeros stand in the lower word where there should be ones.

Everything is stated bit by bit, on words side by side (`Word.join`). That saves the distinction
between amounts below and above the width of a word.

## Main results

* `Alu.val_shr`, `Alu.spill_shr`: a shift of one word, by any amount
* `lower_shiftedDown_eq_iff`: when the lower word of a shift is the same in both modes
* `Alu.shr_across`: what the three operations make, and when that is the shifted number
* `Alu.exists_sign_lost`: a negative number that becomes a wrong one
-/

namespace WordMachine

/-! ### Shifts of bits -/

/-- Bits moved down by some places, with copies of the sign behind them in signed mode and with
zeros otherwise. -/
def shiftedDown {width : Nat} (isSigned : Bool) (x : BitVec width) (places : Nat) : BitVec width :=
  if isSigned then x.sshiftRight places else x >>> places

theorem getLsbD_shiftedDown {width : Nat} (isSigned : Bool) (x : BitVec width) (places i : Nat) :
    (shiftedDown isSigned x places).getLsbD i =
      (decide (i < width) &&
        if places + i < width then x.getLsbD (places + i) else isSigned && x.msb) := by
  cases isSigned with
  | true =>
    simp only [shiftedDown, if_true, BitVec.getLsbD_sshiftRight, Bool.true_and]
    by_cases h : i < width
    · simp [h]
    · simp [h]
  | false =>
    simp only [shiftedDown, Bool.false_eq_true, if_false, BitVec.getLsbD_ushiftRight,
      Bool.false_and]
    by_cases h : places + i < width
    · have hi : i < width := by omega
      simp [h, hi]
    · have hge : width ≤ places + i := by omega
      simp [h, BitVec.getLsbD_of_ge _ _ hge]

section Halves

variable (isSigned : Bool) (high low : BitVec 16) (places : Nat)

/-- The upper half of a number is shifted without regard to the lower one. -/
theorem upper_shiftedDown :
    (shiftedDown isSigned (high ++ low) places).extractLsb' 16 16
      = shiftedDown isSigned high places := by
  apply BitVec.eq_of_getLsbD_eq
  intro i hi
  have hsub : places + (16 + i) - 16 = places + i := by omega
  have hge : ¬ places + (16 + i) < 16 := by omega
  have hiff : places + (16 + i) < 16 + 16 ↔ places + i < 16 := by omega
  have hlt : 16 + i < 16 + 16 := by omega
  rw [BitVec.getLsbD_extractLsb', getLsbD_shiftedDown, getLsbD_shiftedDown, BitVec.getLsbD_append,
    BitVec.msb_append, hsub]
  simp [hi, hge, hiff, hlt]

/-- What a lower half keeps and what it gets from the upper half stand in different places. -/
theorem lower_and_incoming :
    low >>> places &&& ((high ++ 0#16) >>> places).extractLsb' 0 16 = 0#16 := by
  apply BitVec.eq_of_getLsbD_eq
  intro i hi
  simp only [BitVec.getLsbD_and, BitVec.getLsbD_ushiftRight, BitVec.getLsbD_extractLsb',
    Nat.zero_add, BitVec.getLsbD_append, BitVec.getLsbD_zero]
  by_cases h : places + i < 16
  · simp [h]
  · simp [BitVec.getLsbD_of_ge low _ (Nat.le_of_not_lt h)]

/-- Both together are the lower half of the whole number, shifted without a sign. -/
theorem lower_add_incoming :
    low >>> places + ((high ++ 0#16) >>> places).extractLsb' 0 16
      = ((high ++ low) >>> places).extractLsb' 0 16 := by
  rw [BitVec.add_eq_or_of_and_eq_zero _ _ (lower_and_incoming high low places)]
  apply BitVec.eq_of_getLsbD_eq
  intro i hi
  simp only [BitVec.getLsbD_or, BitVec.getLsbD_ushiftRight, BitVec.getLsbD_extractLsb',
    Nat.zero_add, BitVec.getLsbD_append, BitVec.getLsbD_zero]
  by_cases h : places + i < 16
  · simp [h, hi]
  · simp [h, hi, BitVec.getLsbD_of_ge low _ (Nat.le_of_not_lt h)]

/-- The lower half of a number is the same in both modes, unless copies of the sign come down to it.
-/
theorem lower_shiftedDown_eq_iff :
    (shiftedDown isSigned (high ++ low) places).extractLsb' 0 16
        = ((high ++ low) >>> places).extractLsb' 0 16 ↔
      (isSigned = true → high.msb = true → places ≤ 16) := by
  constructor
  · intro h hsigned hmsb
    refine Nat.le_of_not_lt fun hlt => ?_
    -- the topmost bit of the lower half is a copy of the sign
    have hbit := congrArg (·.getLsbD 15) h
    have hge : ¬ places + 15 < 16 + 16 := by omega
    simp only [BitVec.getLsbD_extractLsb', Nat.zero_add, getLsbD_shiftedDown,
      BitVec.getLsbD_ushiftRight, BitVec.msb_append, hsigned, hmsb, if_neg hge,
      BitVec.getLsbD_of_ge (high ++ low) _ (Nat.le_of_not_lt hge)] at hbit
    simp at hbit
  · intro h
    apply BitVec.eq_of_getLsbD_eq
    intro i hi
    simp only [BitVec.getLsbD_extractLsb', Nat.zero_add, getLsbD_shiftedDown,
      BitVec.getLsbD_ushiftRight, BitVec.msb_append]
    by_cases hlt : places + i < 16 + 16
    · have hlt' : i < 16 + 16 := by omega
      simp [hlt, hlt']
    · have hsign : (isSigned && high.msb) = false := by
        rw [← Bool.not_eq_true, Bool.and_eq_true]
        rintro ⟨hsigned, hmsb⟩
        have hle := h hsigned hmsb
        omega
      simp [hlt, hsign, BitVec.getLsbD_of_ge (high ++ low) _ (Nat.le_of_not_lt hlt)]

/-- Two words are a number exactly if they are its halves. -/
theorem append_eq_halves_iff {x : BitVec 32} :
    high ++ low = x ↔ high = x.extractLsb' 16 16 ∧ low = x.extractLsb' 0 16 := by
  constructor
  · rintro rfl
    constructor
    · rw [BitVec.extractLsb'_append_eq_of_le (Nat.le_refl 16), Nat.sub_self,
        BitVec.extractLsb'_eq_self]
    · rw [BitVec.extractLsb'_append_eq_of_add_le (Nat.le_refl 16), BitVec.extractLsb'_eq_self]
  · rintro ⟨rfl, rfl⟩
    exact BitVec.extractLsb'_append_extractLsb'

/-- Bits that are moved by their whole width or more leave copies of the sign, or zeros. -/
theorem shiftedDown_of_le (h : 16 ≤ places) :
    shiftedDown isSigned high places
      = if isSigned && high.msb then BitVec.allOnes 16 else 0#16 := by
  apply BitVec.eq_of_getLsbD_eq
  intro i hi
  have hge : ¬ places + i < 16 := by omega
  rw [getLsbD_shiftedDown, if_neg hge]
  cases isSigned && high.msb with
  | false => simp only [Bool.and_false, Bool.false_eq_true, if_false, BitVec.getLsbD_zero]
  | true => simp only [Bool.and_true, if_true, BitVec.getLsbD_allOnes]

end Halves

/-! ### Shifts of words -/

namespace Alu

theorem toBitVec_lowWord (wide : UInt32) :
    (lowWord wide).toBitVec = wide.toBitVec.extractLsb' 0 16 := by
  apply BitVec.eq_of_getLsbD_eq
  intro i hi
  rw [lowWord, UInt32.toBitVec_toUInt16, BitVec.getLsbD_setWidth, BitVec.getLsbD_extractLsb',
    Nat.zero_add]

theorem toBitVec_highWord (wide : UInt32) :
    (highWord wide).toBitVec = wide.toBitVec.extractLsb' 16 16 := by
  apply BitVec.eq_of_getLsbD_eq
  intro i hi
  have hshift : (wide >>> 16).toBitVec = wide.toBitVec >>> 16 := rfl
  rw [highWord, UInt32.toBitVec_toUInt16, hshift, BitVec.getLsbD_setWidth,
    BitVec.getLsbD_ushiftRight, BitVec.getLsbD_extractLsb']

/-- The copies of the sign that come down from above do not reach the lower half. -/
theorem lowWord_shiftRight_sixteen (wide : Int32) :
    lowWord (wide >>> 16).toUInt32 = highWord wide.toUInt32 := by
  apply UInt16.toBitVec_inj.mp
  rw [toBitVec_lowWord, toBitVec_highWord]
  apply BitVec.eq_of_getLsbD_eq
  intro i hi
  have hshift : (wide >>> 16).toUInt32.toBitVec = wide.toBitVec.sshiftRight 16 := rfl
  have hbits : wide.toUInt32.toBitVec = wide.toBitVec := rfl
  have hinside : 16 + i < 32 := by omega
  have hlow : ¬ 32 ≤ i := by omega
  rw [hshift, hbits, BitVec.getLsbD_extractLsb', BitVec.getLsbD_extractLsb', Nat.zero_add,
    BitVec.getLsbD_sshiftRight, if_pos hinside]
  simp [hlow]

/-- Whatever is in front of a word is gone when the word is moved to the upper half. -/
theorem shiftLeft_sixteen {x : BitVec 32} {b : Word}
    (h : ∀ i, i < 16 → x.getLsbD i = b.toBitVec.getLsbD i) : x <<< 16 = Word.join b 0 := by
  apply BitVec.eq_of_getLsbD_eq
  intro i hi
  have hzero : (0 : Word).toBitVec = 0#16 := rfl
  rw [Word.join, hzero, BitVec.getLsbD_shiftLeft, BitVec.getLsbD_append]
  by_cases hlow : i < 16
  · simp [hlow]
  · simp [hlow, hi, h (i - 16) (by omega)]

theorem toBitVec_widen_shl (b : Word) : (widen b <<< 16).toBitVec = Word.join b 0 := by
  have hshift : (widen b <<< 16).toBitVec = (widen b).toBitVec <<< 16 := rfl
  rw [hshift]
  refine shiftLeft_sixteen fun i hi => ?_
  have hlt : i < 32 := by omega
  rw [widen, Int16.toBitVec_toInt32, BitVec.getLsbD_signExtend, if_pos hi, decide_eq_true hlt,
    Bool.true_and]
  rfl

theorem toBitVec_toUInt32_shl (b : Word) : (b.toUInt32 <<< 16).toBitVec = Word.join b 0 := by
  have hshift : (b.toUInt32 <<< 16).toBitVec = b.toUInt32.toBitVec <<< 16 := rfl
  rw [hshift]
  refine shiftLeft_sixteen fun i hi => ?_
  have hlt : i < 32 := by omega
  rw [UInt16.toBitVec_toUInt32, BitVec.getLsbD_setWidth, decide_eq_true hlt, Bool.true_and]

section Places

variable {a : Word} (h : a.toNat < 32)

include h

theorem toBitVec_shr (wide : UInt32) :
    (wide >>> a.toUInt32).toBitVec = wide.toBitVec >>> a.toNat := by
  have hplaces : (a.toUInt32.toBitVec % 32).toNat = a.toNat := by
    rw [BitVec.toNat_umod]
    exact Nat.mod_eq_of_lt h
  rw [UInt32.toBitVec_shiftRight, BitVec.ushiftRight_eq', hplaces]

theorem toBitVec_shr_toInt32 (wide : Int32) :
    (wide >>> a.toUInt32.toInt32).toBitVec = wide.toBitVec.sshiftRight a.toNat := by
  have hplaces : (a.toUInt32.toBitVec.smod 32).toNat = a.toNat := by
    have hplus : a.toUInt32.toBitVec.msb = false := by
      rw [UInt16.toBitVec_toUInt32, BitVec.msb_setWidth]
      exact BitVec.getLsbD_of_ge _ _ (by decide)
    have hplus' : (32 : BitVec 32).msb = false := by decide
    rw [BitVec.smod_eq, hplus, hplus']
    exact (BitVec.toNat_umod ..).trans (Nat.mod_eq_of_lt h)
  rw [Int32.toBitVec_shiftRight, UInt32.toBitVec_toInt32, BitVec.sshiftRight_eq', hplaces]

end Places

/-- The bit that tells the sign of a word, by the mask that leaves nothing else. -/
theorem and_top_bne (b : Word) : (b &&& 0x8000 != 0) = b.toBitVec.msb := by
  rw [Bool.eq_iff_iff, bne_iff_ne, BitVec.msb_eq_getLsbD_last]
  exact Word.and_bit_ne_zero_iff b (by decide : 15 < 16)

/-- A word is shifted as its bits are, by whatever amount. By less than 32 places, it is moved down
as the upper half of a number of which the lower half is left behind. -/
theorem val_shr (isSigned : Bool) (a b : Word) :
    (shr isSigned a b).val.toBitVec = shiftedDown isSigned b.toBitVec a.toNat := by
  have hiff : 32 ≤ a ↔ 32 ≤ a.toNat := UInt16.le_iff_toNat_le
  by_cases h : 32 ≤ a.toNat
  · rw [shr, if_pos (hiff.mpr h), shiftedDown_of_le _ _ _ (by omega), and_top_bne]
    cases isSigned && b.toBitVec.msb <;> rfl
  · have hzero : (0 : Word).toBitVec = 0#16 := rfl
    rw [← upper_shiftedDown isSigned b.toBitVec 0#16, ← hzero, ← Word.join]
    cases isSigned with
    | true =>
      have hval : (shr true a b).val
          = highWord (widen b <<< 16 >>> a.toUInt32.toInt32).toUInt32 := by
        rw [shr, if_neg (mt hiff.mp h)]
        exact lowWord_shiftRight_sixteen _
      rw [hval, toBitVec_highWord, Int32.toBitVec_toUInt32, toBitVec_shr_toInt32 (by omega),
        toBitVec_widen_shl, shiftedDown, if_pos rfl]
    | false =>
      have hval : (shr false a b).val = highWord (b.toUInt32 <<< 16 >>> a.toUInt32) := by
        rw [shr, if_neg (mt hiff.mp h)]
        rfl
      rw [hval, toBitVec_highWord, toBitVec_shr (by omega), toBitVec_toUInt32_shl, shiftedDown,
        if_neg Bool.false_ne_true]

/-- What is spilled are the bits that leave the word, and the sign is not among them. -/
theorem spill_shr (isSigned : Bool) (a b : Word) :
    (shr isSigned a b).spill.toBitVec = (Word.join b 0 >>> a.toNat).extractLsb' 0 16 := by
  have hiff : 32 ≤ a ↔ 32 ≤ a.toNat := UInt16.le_iff_toNat_le
  by_cases h : 32 ≤ a.toNat
  · rw [shr, if_pos (hiff.mpr h), BitVec.ushiftRight_eq_zero h]
    rfl
  · have hspill : (shr isSigned a b).spill = lowWord (b.toUInt32 <<< 16 >>> a.toUInt32) := by
      rw [shr, if_neg (mt hiff.mp h)]
      rfl
    rw [hspill, toBitVec_lowWord, toBitVec_shr (by omega), toBitVec_toUInt32_shl]

/-- **A shift across two words.** What the lower word keeps and what the upper one spills are added
without a carry. The upper word is the upper half of the shifted number, in the mode of the shift,
and the sum is the lower half of the number that is shifted with zeros behind it. This is the
shifted number, unless it has a sign, is negative and is shifted by more than a word. -/
theorem shr_across (high low a before between spare : Word) (isSigned mode : Bool) :
    let upper := eval .shr a high before isSigned
    let lower := eval .shr a low between false
    let sum := eval .addc lower.val spare upper.spill mode
    lower.val.toNat + upper.spill.toNat < 65536 ∧
    upper.val.toBitVec
      = (shiftedDown isSigned (Word.join high low) a.toNat).extractLsb' 16 16 ∧
    sum.val.toBitVec = (Word.join high low >>> a.toNat).extractLsb' 0 16 ∧
    (Word.join upper.val sum.val = shiftedDown isSigned (Word.join high low) a.toNat ↔
      (isSigned = true → high.toBitVec.msb = true → a.toNat ≤ 16)) := by
  intro upper lower sum
  have hlower : lower.val.toBitVec = low.toBitVec >>> a.toNat := val_shr false a low
  have hspill : upper.spill.toBitVec = ((high.toBitVec ++ 0#16) >>> a.toNat).extractLsb' 0 16 :=
    spill_shr isSigned a high
  have hupper : upper.val.toBitVec
      = (shiftedDown isSigned (Word.join high low) a.toNat).extractLsb' 16 16 := by
    rw [Word.join, upper_shiftedDown]
    exact val_shr isSigned a high
  have hsum : sum.val.toBitVec = (Word.join high low >>> a.toNat).extractLsb' 0 16 := by
    rw [val_eval_addc, UInt16.toBitVec_add, hlower, hspill, lower_add_incoming]
    rfl
  refine ⟨?_, hupper, hsum, ?_⟩
  · have hnone := lower_and_incoming high.toBitVec low.toBitVec a.toNat
    rw [← hlower, ← hspill] at hnone
    have hcarry := BitVec.toNat_add_of_and_eq_zero hnone
    have hlt := (lower.val.toBitVec + upper.spill.toBitVec).isLt
    rw [hcarry] at hlt
    exact hlt
  · rw [← lower_shiftedDown_eq_iff isSigned high.toBitVec low.toBitVec a.toNat, Word.join,
      append_eq_halves_iff, hsum]
    constructor
    · rintro ⟨-, h⟩
      exact h.symm
    · intro h
      exact ⟨hupper, h.symm⟩

/-- The least number of 32 bits, moved down by seventeen places. The sign is lost at the top of the
lower word. -/
theorem exists_sign_lost :
    ∃ high low a : Word,
      let upper := eval .shr a high 0 true
      let lower := eval .shr a low 0 false
      let sum := eval .addc lower.val 0 upper.spill true
      (Word.join high low).sshiftRight a.toNat = 0xFFFFC000 ∧
        Word.join upper.val sum.val = 0xFFFF4000 :=
  ⟨0x8000, 0, 17, by decide, by decide⟩

end Alu

end WordMachine
