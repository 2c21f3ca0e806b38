/-!
# Machine words

The machine computes with 16-bit words. A word is read in one of two ways: as the natural number
`w.toNat`, or, in two's complement, as the integer `Word.signed w`. `Word.ofInt` goes the other way
and keeps an integer's residue modulo `2 ^ 16`, which is all that a store to a register keeps.

Memory is divided into pages of 256 words, so the high byte of an address names a page and the low
byte a place within it.

## Main statements

* `Word.toNat_ofInt`, `Word.ofInt_toNat`, `Word.ofInt_signed`: reading and storing are inverse up
  to the modulus
* `Word.checkedAdd_eq_some_iff`, `Word.checkedAdd_eq_none_iff`: when two words have a sum
* `Word.page_mul_add_offset`: an address is made of its page and its place there
-/

namespace WordMachine

/-- A machine word. -/
abbrev Word := UInt16

namespace Word

/-- The word holding the residue of `i` modulo `2 ^ 16`. -/
def ofInt (i : Int) : Word := UInt16.ofNat (i % 65536).toNat

/-- The two's complement reading of a word. -/
def signed (w : Word) : Int := Int.bmod w.toNat 65536

/-- The word that stands for an integer of at most 16 bits beside its sign, if it is one. -/
def ofInt? (i : Int) : Option Word := if i.natAbs < 65536 then some (ofInt i) else none

/-- The two bytes of a word change places. -/
def swapBytes (w : Word) : Word := (w &&& 0x00FF) <<< 8 ||| (w &&& 0xFF00) >>> 8

/-- The number of patterns of so many bits, counted by doubling. -/
def patterns : Nat → Nat
  | 0 => 1
  | bits + 1 => 2 * patterns bits

/-- The word whose lowest `width` bits are set. -/
def mask (width : Nat) : Word := (1 <<< UInt16.ofNat width) - 1

/-- The low `width` bits of a word, read in two's complement and widened to a whole word. They are
shifted to the top and back again, and the way back repeats the sign. -/
def signExtend (w : Word) (width : Nat) : Word :=
  let shift := UInt16.ofNat (16 - width)
  ((w <<< shift).toInt16 >>> shift.toInt16).toUInt16

/-- The number of words in a page. -/
def pageWords : Nat := 256

/-- The page that an address falls in. -/
def page (addr : Word) : Nat := (addr >>> 8).toNat

/-- The place of an address within its page. -/
def offset (addr : Word) : Nat := (addr &&& 0x00FF).toNat

/-- The first address of the page that `addr` falls in. -/
def pageBase (addr : Word) : Word := addr &&& 0xFF00

/-- The sum of two words, if it is a word. -/
def checkedAdd (v w : Word) : Option Word :=
  if v.toNat + w.toNat < 65536 then some (v + w) else none

theorem toNat_ofInt (i : Int) : (ofInt i).toNat = (i % 65536).toNat := by
  have h : (i % 65536).toNat < 65536 := by omega
  simp [ofInt, UInt16.toNat_ofNat', Nat.mod_eq_of_lt h]

theorem toNat_ofNat_of_lt {n : Nat} (h : n < 65536) : (UInt16.ofNat n : Word).toNat = n := by
  simp [UInt16.toNat_ofNat', Nat.mod_eq_of_lt h]

theorem toNat_lt (w : Word) : w.toNat < 65536 := UInt16.toNat_lt w

@[simp] theorem ofInt_toNat (w : Word) : ofInt (w.toNat : Int) = w := by
  apply UInt16.toNat_inj.mp
  rw [toNat_ofInt]
  have := toNat_lt w
  omega

/-- Residues of integers that agree modulo `2 ^ 16` are one word. -/
theorem ofInt_eq_iff {i j : Int} : ofInt i = ofInt j ↔ i % 65536 = j % 65536 := by
  rw [← UInt16.toNat_inj, toNat_ofInt, toNat_ofInt]
  omega

@[simp] theorem ofInt_signed (w : Word) : ofInt (signed w) = w := by
  refine Eq.trans ?_ (ofInt_toNat w)
  rw [ofInt_eq_iff]
  unfold signed Int.bmod
  dsimp only
  split <;> omega

theorem checkedAdd_eq_some_iff {v w sum : Word} :
    checkedAdd v w = some sum ↔ sum.toNat = v.toNat + w.toNat := by
  have hsum := toNat_lt sum
  have hadd : (v + w).toNat = (v.toNat + w.toNat) % 65536 := UInt16.toNat_add v w
  rw [checkedAdd]
  split
  · rw [Option.some.injEq, ← UInt16.toNat_inj, hadd]
    omega
  · exact ⟨nofun, fun h => by omega⟩

theorem checkedAdd_eq_none_iff {v w : Word} :
    checkedAdd v w = none ↔ 65536 ≤ v.toNat + w.toNat := by
  rw [checkedAdd]
  split
  · exact ⟨nofun, fun h => by omega⟩
  · exact ⟨fun _ => by omega, fun _ => rfl⟩

theorem patterns_eq (bits : Nat) : patterns bits = Nat.pow 2 bits := by
  induction bits with
  | zero => rfl
  | succ bits ih =>
    rw [patterns, ih, Nat.mul_comm]
    rfl

theorem patterns_pos (bits : Nat) : 0 < patterns bits := by
  induction bits with
  | zero => decide
  | succ bits ih => exact Nat.mul_pos (by decide) ih

/-! ### Addresses -/

theorem page_eq (addr : Word) : page addr = addr.toNat / 256 := by
  rw [page, UInt16.toNat_shiftRight]
  exact Nat.shiftRight_eq_div_pow addr.toNat 8

theorem offset_eq (addr : Word) : offset addr = addr.toNat % 256 := by
  rw [offset, UInt16.toNat_and]
  exact Nat.and_two_pow_sub_one_eq_mod addr.toNat 8

theorem page_mul_add_offset (addr : Word) : page addr * 256 + offset addr = addr.toNat := by
  rw [page_eq, offset_eq]
  omega

theorem page_lt (addr : Word) : page addr < 256 := by
  have h := toNat_lt addr
  rw [page_eq]
  omega

theorem offset_lt (addr : Word) : offset addr < pageWords := by
  rw [offset_eq]
  exact Nat.mod_lt _ (by decide)

end Word

end WordMachine
