import WordMachine.Proofs.DoubleWidth

/-!
# Quotients

A division hands back a quotient and what remains. Two words of a mode have a quotient of that mode,
with a single exception: the least number with a sign, divided by minus one, is one more than the
greatest. Nothing remains in this case, and the quotient wraps around to the number that was
divided.

The other operations of the arithmetic unit overflow when a word has no room for what they come to.
A division does not, in the one case in which it could. It overflows when the divisor is zero, and
only then.

## Main results

* `Alu.quotient_mem_iff`: which quotients there is a word for
* `Alu.eval_div`: what a division comes to, for all operands in either mode
* `Alu.exists_silent_quotient`: a quotient without a word, and without an overflow
-/

namespace WordMachine

namespace Alu

/-- The exact quotient toward zero of the integers that two words stand for. -/
def quotient (isSigned : Bool) (a b : Word) : Int := (reading isSigned b).tdiv (reading isSigned a)

/-- The two words that stand for the least number and for minus one. -/
def IsLeastByMinusOne (isSigned : Bool) (a b : Word) : Prop :=
  isSigned = true ∧ b = 0x8000 ∧ a = 0xFFFF

instance (isSigned : Bool) (a b : Word) : Decidable (IsLeastByMinusOne isSigned a b) :=
  inferInstanceAs (Decidable (isSigned = true ∧ b = 0x8000 ∧ a = 0xFFFF))

variable {isSigned : Bool} {a b : Word}

/-- In either mode different words stand for different integers. -/
theorem reading_inj : reading isSigned a = reading isSigned b ↔ a = b := by
  constructor
  · intro h
    rw [← ofInt_reading isSigned a, h, ofInt_reading]
  · rintro rfl
    rfl

theorem reading_eq_zero_iff : reading isSigned a = 0 ↔ a = 0 := by
  have hzero : reading isSigned 0 = 0 := by cases isSigned <;> decide
  rw [← hzero, reading_inj]

theorem isLeastByMinusOne_iff : IsLeastByMinusOne isSigned a b ↔
    isSigned = true ∧ reading isSigned b = -32768 ∧ reading isSigned a = -1 := by
  refine and_congr_right ?_
  rintro rfl
  have hleast : reading true 0x8000 = -32768 := by decide
  have hminus : reading true 0xFFFF = -1 := by decide
  rw [← hleast, ← hminus, reading_inj, reading_inj]

/-! ### Integers -/

/-- A quotient by anything but a unit is at most half of what is divided. -/
theorem natAbs_tdiv_le_half {x y : Int} (hy : 2 ≤ y.natAbs) :
    (x.tdiv y).natAbs ≤ x.natAbs / 2 := by
  rw [Int.natAbs_tdiv]
  exact Nat.div_le_div_left hy (by decide)

/-- What remains is smaller than the divisor. -/
theorem natAbs_remainder_lt (ha : a ≠ 0) :
    ((reading isSigned b).tmod (reading isSigned a)).natAbs < (reading isSigned a).natAbs := by
  rw [Int.natAbs_tmod]
  exact Nat.mod_lt _ (Int.natAbs_pos.mpr (mt reading_eq_zero_iff.mp ha))

/-- There is a word for every quotient but that of the least number by minus one. -/
theorem quotient_mem_iff (ha : a ≠ 0) :
    quotient isSigned a b ∈ Range.ofBits 16 isSigned ↔ ¬ IsLeastByMinusOne isSigned a b := by
  have hx := reading_mem isSigned b
  have hy := reading_mem isSigned a
  have hne : reading isSigned a ≠ 0 := mt reading_eq_zero_iff.mp ha
  rw [isLeastByMinusOne_iff, quotient]
  generalize reading isSigned b = x at hx ⊢
  generalize reading isSigned a = y at hy hne ⊢
  cases isSigned with
  | false =>
    rw [Range.mem_ofBits_sixteen_false] at hx hy ⊢
    have hle := Int.natAbs_tdiv_le_natAbs x y
    have hnonneg := Int.tdiv_nonneg hx.1 hy.1
    simp only [Bool.false_eq_true, false_and, not_false_iff, iff_true]
    omega
  | true =>
    rw [Range.mem_ofBits_sixteen_true] at hx hy ⊢
    simp only [true_and]
    by_cases hhalf : 2 ≤ y.natAbs
    · have hle := natAbs_tdiv_le_half (x := x) hhalf
      omega
    · -- the divisor is a unit, so the quotient is `x` or `-x`
      obtain rfl | rfl : y = 1 ∨ y = -1 := by omega
      · rw [Int.tdiv_one]
        omega
      · rw [Int.tdiv_neg, Int.tdiv_one]
        omega

/-- What remains is smaller than the divisor, so there is always a word for it. -/
theorem remainder_mem (ha : a ≠ 0) :
    (reading isSigned b).tmod (reading isSigned a) ∈ Range.ofBits 16 isSigned := by
  have hx := reading_mem isSigned b
  have hy := reading_mem isSigned a
  have hlt := @natAbs_remainder_lt isSigned a b ha
  cases isSigned with
  | false =>
    have hnonneg := Int.tmod_nonneg (reading false a) (Range.mem_ofBits_sixteen_false.mp hx).1
    rw [Range.mem_ofBits_sixteen_false] at hy ⊢
    omega
  | true =>
    rw [Range.mem_ofBits_sixteen_true] at hy ⊢
    omega

end Alu

/-! ### Results -/

/-- A result is the quotient of two words, and it spills what remains. -/
structure AluResult.Divides (r : AluResult) (isSigned : Bool) (a b : Word) : Prop where
  val_eq : Alu.reading isSigned r.val = Alu.quotient isSigned a b
  restores : Alu.reading isSigned r.val * Alu.reading isSigned a + Alu.reading isSigned r.spill
    = Alu.reading isSigned b
  natAbs_lt : (Alu.reading isSigned r.spill).natAbs < (Alu.reading isSigned a).natAbs
  sign_eq : Alu.reading isSigned r.spill = 0 ∨
    (Alu.reading isSigned r.spill).sign = (Alu.reading isSigned b).sign

namespace Alu

variable {isSigned : Bool} {a b : Word}

/-- A word is the residue of what its bits stand for with a sign. -/
theorem toUInt16_eq_ofInt (x : Int16) : x.toUInt16 = Word.ofInt x.toInt := by
  have htoInt : x.toInt = Word.signed x.toUInt16 := BitVec.toInt_eq_toNat_bmod _
  rw [htoInt, Word.ofInt_signed]

theorem toInt_toInt16 (w : Word) : w.toInt16.toInt = reading true w := by
  rw [reading_true]
  exact BitVec.toInt_eq_toNat_bmod _

/-- Only what a word has room for is left of a quotient and of what remains. -/
theorem div_of_ne_zero (ha : a ≠ 0) :
    div isSigned a b = .of (.ofInt (quotient isSigned a b))
      (.ofInt ((reading isSigned b).tmod (reading isSigned a))) false := by
  rw [div, if_neg ha]
  cases isSigned with
  | true =>
    have hquotient :
        Word.ofInt ((b.toInt16 / a.toInt16).toInt) = Word.ofInt (quotient true a b) := by
      rw [Int16.toInt_div, toInt_toInt16, toInt_toInt16, Word.ofInt_eq_iff, quotient]
      exact Int.bmod_emod
    rw [if_pos rfl, toUInt16_eq_ofInt, toUInt16_eq_ofInt, hquotient, Int16.toInt_mod,
      toInt_toInt16, toInt_toInt16]
  | false =>
    rw [if_neg Bool.false_ne_true, quotient, reading_false, reading_false, ← Int.ofNat_tdiv,
      ← Int.ofNat_tmod, ← UInt16.toNat_div, ← UInt16.toNat_mod, Word.ofInt_toNat, Word.ofInt_toNat]

/-- A quotient for which there is a word is found, together with what remains. -/
theorem divides_of_quotient_mem (ha : a ≠ 0)
    (h : quotient isSigned a b ∈ Range.ofBits 16 isSigned) :
    (div isSigned a b).Divides isSigned a b := by
  have hval : reading isSigned (div isSigned a b).val = quotient isSigned a b := by
    rw [div_of_ne_zero ha]
    exact reading_ofInt_eq_iff.mpr h
  have hspill : reading isSigned (div isSigned a b).spill
      = (reading isSigned b).tmod (reading isSigned a) := by
    rw [div_of_ne_zero ha]
    exact reading_ofInt_eq_iff.mpr (remainder_mem ha)
  refine ⟨hval, ?_, ?_, ?_⟩
  · rw [hval, hspill]
    exact Int.tdiv_mul_add_tmod _ _
  · rw [hspill]
    exact natAbs_remainder_lt ha
  · rw [hspill, Int.sign_tmod]
    by_cases hdvd : reading isSigned a ∣ reading isSigned b
    · exact Or.inl (Int.tmod_eq_zero_of_dvd hdvd)
    · exact Or.inr (if_neg hdvd)

/-- The quotient that there is no word for comes back as the number that was divided. -/
theorem div_of_isLeastByMinusOne (h : IsLeastByMinusOne isSigned a b) :
    div isSigned a b = .of b 0 false := by
  obtain ⟨rfl, rfl, rfl⟩ := h
  have hquotient : Word.ofInt (quotient true 0xFFFF 0x8000) = 0x8000 := by decide
  have hremainder : Word.ofInt ((reading true 0x8000).tmod (reading true 0xFFFF)) = 0 := by decide
  rw [div_of_ne_zero (by decide), hquotient, hremainder]

/-- **Division, as far as it is exact.** By zero, it gives the greatest word, spills what was to be
divided and overflows. By anything else, every quotient for which there is a word is found together
with what remains. There is one quotient without a word. It wraps around, nothing remains, and the
division does not overflow in this case either. -/
theorem eval_div (a b spill : Word) (isSigned : Bool) :
    (a = 0 →
      (eval .div a b spill isSigned).val = 0xFFFF ∧
      (eval .div a b spill isSigned).spill = b ∧
      (eval .div a b spill isSigned).flags.overflow = true) ∧
    (a ≠ 0 →
      (quotient isSigned a b ∈ Range.ofBits 16 isSigned →
        (eval .div a b spill isSigned).Divides isSigned a b) ∧
      (quotient isSigned a b ∉ Range.ofBits 16 isSigned ↔ IsLeastByMinusOne isSigned a b) ∧
      (IsLeastByMinusOne isSigned a b →
        (eval .div a b spill isSigned).val = b ∧ (eval .div a b spill isSigned).spill = 0) ∧
      (eval .div a b spill isSigned).flags.overflow = false) := by
  have heval : eval .div a b spill isSigned = div isSigned a b := rfl
  rw [heval]
  constructor
  · rintro rfl
    exact ⟨rfl, rfl, rfl⟩
  · intro ha
    refine ⟨divides_of_quotient_mem ha, ?_, ?_, ?_⟩
    · rw [quotient_mem_iff ha, Classical.not_not]
    · intro h
      rw [div_of_isLeastByMinusOne h]
      exact ⟨rfl, rfl⟩
    · rw [div_of_ne_zero ha]
      rfl

/-- Ten by minus three is minus three, and one remains. -/
theorem eval_div_ten :
    quotient true 0xFFFD 10 = -3 ∧ (eval .div 0xFFFD 10 0 true).Divides true 0xFFFD 10 := by
  have hquotient : quotient true 0xFFFD 10 = -3 := by decide
  refine ⟨hquotient, ((eval_div 0xFFFD 10 0 true).2 (by decide)).1 ?_⟩
  rw [hquotient]
  decide

/-- The least number by minus one has no word for its quotient, and does not overflow. -/
theorem exists_silent_quotient :
    ∃ a b : Word, a ≠ 0 ∧ quotient true a b ∉ Range.ofBits 16 true ∧
      (eval .div a b 0 true).flags.overflow = false :=
  ⟨0xFFFF, 0x8000, by decide, by decide, by decide⟩

end Alu

end WordMachine
