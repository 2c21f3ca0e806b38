import Mathlib.Algebra.Group.Nat.Defs
import WordMachine.Word

/-!
# Shifts and masks

A shift multiplies a word or divides it, and a mask of low bits keeps a remainder. What is masked or
shifted apart does not meet, so a disjunction of it is a sum. With these a word that is put together
and taken apart bit by bit can be treated as a number. Sign extension shifts a field to the top of a
word and back again, and comes to a residue that is centred around zero.

## Main statements

* `Word.toNat_shiftLeft`, `Word.toNat_shiftRight`: shifts as products and quotients
* `Word.toNat_and_mask`, `Word.toNat_or`: masks keep a remainder, and words that do not meet add up
* `Word.and_bit`: a mask of one bit
* `Word.signed_signExtend`: sign extension is a centred residue
-/

namespace WordMachine

namespace Word

/-! ### Words as numbers -/

theorem patterns_mul_two_pow {bits k : Nat} (h : bits + k = 16) :
    patterns bits * 2 ^ k = 65536 := by
  rw [patterns_eq]
  change 2 ^ bits * 2 ^ k = 2 ^ 16
  rw [← Nat.pow_add, h]

theorem toNat_shiftLeft (w : Word) {k : Nat} (hk : k < 16) :
    (w <<< UInt16.ofNat k).toNat = w.toNat * 2 ^ k % 65536 := by
  rw [UInt16.toNat_shiftLeft, toNat_ofNat_of_lt (by omega), Nat.mod_eq_of_lt hk,
    Nat.shiftLeft_eq]

/-- A small number is only moved. -/
theorem toNat_ofNat_shiftLeft {n : Nat} (k : Nat) (hk : k < 16) (h : n * 2 ^ k < 65536) :
    ((UInt16.ofNat n : Word) <<< UInt16.ofNat k).toNat = n * 2 ^ k := by
  have hn : n < 65536 := Nat.lt_of_le_of_lt (Nat.le_mul_of_pos_right n (Nat.two_pow_pos k)) h
  rw [toNat_shiftLeft _ hk, toNat_ofNat_of_lt hn, Nat.mod_eq_of_lt h]

theorem toNat_shiftRight (w : Word) {k : Nat} (hk : k < 16) :
    (w >>> UInt16.ofNat k).toNat = w.toNat / 2 ^ k := by
  rw [UInt16.toNat_shiftRight, toNat_ofNat_of_lt (by omega), Nat.mod_eq_of_lt hk,
    Nat.shiftRight_eq_div_pow]

theorem toNat_mask {width : Nat} (h : width < 16) : (mask width).toNat = 2 ^ width - 1 := by
  have hlt : 2 ^ width < 65536 := Nat.pow_lt_pow_right (n := 16) (by decide) h
  have hone : ((1 : Word) <<< UInt16.ofNat width).toNat = 2 ^ width := by
    rw [toNat_shiftLeft _ h, UInt16.toNat_one, Nat.one_mul, Nat.mod_eq_of_lt hlt]
  have hle : 1 ≤ (1 : Word) <<< UInt16.ofNat width := by
    rw [UInt16.le_iff_toNat_le, hone]
    exact Nat.two_pow_pos width
  rw [mask, UInt16.toNat_sub_of_le _ _ hle, hone, UInt16.toNat_one]

/-- A mask keeps the low bits. -/
theorem toNat_and_mask (w : Word) {width : Nat} (h : width < 16) :
    (w &&& mask width).toNat = w.toNat % patterns width := by
  rw [UInt16.toNat_and, toNat_mask h, Nat.and_two_pow_sub_one_eq_mod, patterns_eq]
  rfl

/-- A mask keeps the residue of an integer that was stored. -/
theorem toNat_ofInt_and_mask (i : Int) {width : Nat} (h : width < 16) :
    (ofInt i &&& mask width).toNat = (i % patterns width).toNat := by
  have hpos : (0 : Int) < patterns width := Int.natCast_pos.mpr (patterns_pos width)
  have hdvd : (patterns width : Int) ∣ 65536 := by
    refine ⟨(2 ^ (16 - width) : Nat), ?_⟩
    rw [← Int.natCast_mul, patterns_mul_two_pow (by omega)]
    rfl
  refine Int.natCast_inj.mp ?_
  rw [toNat_and_mask _ h, toNat_ofInt, Int.natCast_emod, Int.toNat_of_nonneg (by omega),
    Int.toNat_of_nonneg (Int.emod_nonneg _ (Int.ne_of_gt hpos)), Int.emod_emod_of_dvd _ hdvd]

theorem toNat_bit {k : Nat} (hk : k < 16) : (UInt16.ofNat (2 ^ k) : Word).toNat = 2 ^ k :=
  toNat_ofNat_of_lt (Nat.pow_lt_pow_right (n := 16) (by decide) hk)

/-- A mask of a single bit leaves all of the mask or nothing. -/
theorem and_bit (w : Word) {k : Nat} (hk : k < 16) :
    w &&& UInt16.ofNat (2 ^ k) = if w.toNat.testBit k then UInt16.ofNat (2 ^ k) else 0 := by
  refine UInt16.toNat_inj.mp (Nat.eq_of_testBit_eq fun i => ?_)
  rw [UInt16.toNat_and, apply_ite UInt16.toNat, toNat_bit hk, Nat.testBit_and, Nat.testBit_two_pow]
  by_cases hki : k = i
  · subst hki
    cases w.toNat.testBit k <;> simp
  · rw [decide_eq_false hki, Bool.and_false]
    split <;> simp [hki]

theorem and_bit_ne_zero_iff (w : Word) {k : Nat} (hk : k < 16) :
    w &&& UInt16.ofNat (2 ^ k) ≠ 0 ↔ w.toNat.testBit k = true := by
  have hne : (UInt16.ofNat (2 ^ k) : Word) ≠ 0 := by
    intro hzero
    have hbit := toNat_bit hk
    rw [hzero] at hbit
    exact Nat.ne_of_lt (Nat.two_pow_pos k) hbit
  rw [and_bit w hk]
  split
  · next h => exact ⟨fun _ => h, fun _ => hne⟩
  · next h => exact ⟨fun hzero => absurd rfl hzero, fun hset => absurd hset h⟩

/-- Above the low `k` bits, a disjunction with less than `2 ^ k` is a sum. -/
theorem toNat_or {v w : Word} (k : Nat) (hv : v.toNat % 2 ^ k = 0) (hw : w.toNat < 2 ^ k) :
    (v ||| w).toNat = v.toNat + w.toNat := by
  have hsplit : v.toNat = 2 ^ k * (v.toNat / 2 ^ k) := by
    have h := Nat.div_add_mod v.toNat (2 ^ k)
    omega
  rw [UInt16.toNat_or, hsplit, ← Nat.two_pow_add_eq_or_of_lt hw]

/-! ### Sign extension -/

/-- A centred residue scales with its modulus. -/
theorem bmod_mul (i : Int) (half : Nat) {k : Nat} (hk : 0 < k) :
    Int.bmod (i * k) (2 * half * k) = Int.bmod i (2 * half) * k := by
  have hpos : (0 : Int) < k := Int.natCast_pos.mpr hk
  have hmod : i * k % ((2 * half * k : Nat) : Int) = i % (2 * half : Nat) * k := by
    rw [Int.natCast_mul _ k, Int.mul_comm i, Int.mul_comm _ (k : Int),
      Int.mul_emod_mul_of_pos _ _ hpos, Int.mul_comm]
  have hscaled : (((2 * half * k : Nat) : Int) + 1) / 2 = half * k := by
    rw [Nat.mul_assoc]
    omega
  have hhalf : (((2 * half : Nat) : Int) + 1) / 2 = half := by omega
  rw [Int.bmod_def, Int.bmod_def, hmod, hscaled, hhalf]
  by_cases hlt : i % (2 * half : Nat) < half
  · rw [if_pos hlt, if_pos (Int.mul_lt_mul_of_pos_right hlt hpos)]
  · rw [if_neg hlt, if_neg (fun h => hlt (Int.lt_of_mul_lt_mul_right h (Int.le_of_lt hpos))),
      Int.natCast_mul _ k, Int.sub_mul]

theorem signed_eq_toInt (w : Word) : signed w = w.toInt16.toInt :=
  (BitVec.toInt_eq_toNat_bmod w.toBitVec).symm

/-- A field that is shifted to the top of a word has its sign there. -/
theorem signed_shiftLeft (w : Word) {bits k : Nat} (h : bits + 1 + k = 16) :
    signed (w <<< UInt16.ofNat k) = Int.bmod w.toNat (patterns (bits + 1)) * (2 ^ k : Nat) := by
  have hk : k < 16 := by omega
  have hlift : signed (w <<< UInt16.ofNat k)
      = Int.bmod ((w.toNat : Int) * (2 ^ k : Nat)) 65536 := by
    unfold signed
    rw [toNat_shiftLeft w hk, Int.natCast_emod, Int.natCast_mul]
    exact Int.emod_bmod _ _
  rw [hlift, patterns, ← bmod_mul _ _ (Nat.two_pow_pos k), ← patterns, patterns_mul_two_pow h]

/-- A word shifted down with its sign is a quotient rounded down. -/
theorem signed_shiftRight (w : Word) {k : Nat} (hk : k < 16) :
    signed (w.toInt16 >>> (UInt16.ofNat k).toInt16).toUInt16 = signed w / (2 ^ k : Nat) := by
  have hamount : ∀ k < 16, ((UInt16.ofNat k).toInt16.toBitVec.smod 16).toNat = k := by
    decide +kernel
  rw [signed_eq_toInt, signed_eq_toInt, ← Int.shiftRight_eq_div_pow]
  change (w.toInt16 >>> (UInt16.ofNat k).toInt16).toBitVec.toInt = _
  rw [Int16.toBitVec_shiftRight, BitVec.sshiftRight_eq', hamount k hk, BitVec.toInt_sshiftRight]
  rfl

/-- Sign extension reads the low bits of a word around zero. -/
theorem signed_signExtend (w : Word) {width : Nat} (hpos : 0 < width) (hle : width ≤ 16) :
    signed (signExtend w width) = Int.bmod w.toNat (patterns width) := by
  obtain ⟨bits, rfl⟩ : ∃ bits, width = bits + 1 := ⟨width - 1, by omega⟩
  have hne : ((2 ^ (16 - (bits + 1)) : Nat) : Int) ≠ 0 :=
    Int.natCast_ne_zero.mpr (Nat.pos_iff_ne_zero.mp (Nat.two_pow_pos _))
  have htop : bits + 1 + (16 - (bits + 1)) = 16 := by omega
  rw [signExtend, signed_shiftRight _ (by omega), signed_shiftLeft w htop,
    Int.mul_ediv_cancel _ hne]

end Word

end WordMachine
