import WordMachine.Word
import WordMachine.Text.Line

/-!
# Numerals

Numbers are written in base sixteen, with an optional minus sign and an optional `0x` before the
digits. A numeral whose digits stand for `2 ^ 31` or more is none: it is too large for every place
that a number can stand in.

## Main statements

* `Numeral.value_hex`: the digits of a number have its value
* `Numeral.readDigits?_eq_some_iff`: to stop at the first digit too many loses no number
* `Numeral.read?_hex`, `Numeral.read?_signed`: a number that was written is read back
-/

namespace WordMachine

namespace Numeral

/-- Whether a character is a digit in base sixteen. -/
def isDigit (c : Char) : Bool :=
  ('0' ≤ c && c ≤ '9') || ('a' ≤ c && c ≤ 'f') || ('A' ≤ c && c ≤ 'F')

/-- The value of a digit. -/
def digit (c : Char) : Nat :=
  if c ≤ '9' then c.toNat - 48 else if c ≤ 'F' then c.toNat - 55 else c.toNat - 87

/-- The value of a row of digits. -/
def value (t : List Char) : Nat := t.foldl (fun n c => 16 * n + digit c) 0

/-- The largest magnitude that a numeral may have. -/
def limit : Nat := 2147483647

/-- Reads the digits that go on from a number. The first one that makes it too large ends the
reading, since no digit behind it makes it smaller. -/
def readDigits? (n : Nat) : List Char → Option Nat
  | [] => some n
  | c :: rest =>
    if isDigit c && 16 * n + digit c ≤ limit then readDigits? (16 * n + digit c) rest else none

/-- Reads a number without a sign. -/
def readMagnitude? (t : List Char) : Option Nat :=
  let digits := match t with
    | '0' :: 'x' :: rest => rest
    | _ => t
  if digits.isEmpty then none else readDigits? 0 digits

/-- Reads a number. -/
def read? : List Char → Option Int
  | '-' :: rest => (readMagnitude? rest).map fun n => -(n : Int)
  | t => (readMagnitude? t).map Int.ofNat

/-- The digits of a number in base sixteen, in lower case. -/
def hex (n : Nat) : List Char := Nat.toDigits 16 n

/-- The digits of a number in base ten. -/
def decimal (n : Nat) : List Char := Nat.toDigits 10 n

/-- An integer in base sixteen, without a prefix. -/
def signed (i : Int) : List Char := if i < 0 then '-' :: hex i.natAbs else hex i.natAbs

/-- A number that is small enough to have a single decimal digit is written as that digit, and any
other with a prefix, so that both read the same in base ten and sixteen. -/
def short (i : Int) : List Char :=
  let digits := if i.natAbs < 10 then hex i.natAbs else '0' :: 'x' :: hex i.natAbs
  if i < 0 then '-' :: digits else digits

/-- Four digits for a word. -/
def word (w : Word) : List Char :=
  let digits := hex w.toNat
  List.replicate (4 - digits.length) '0' ++ digits

/-- A word with its prefix, the digits in lower case. -/
def lower (w : Word) : String := String.ofList ('0' :: 'x' :: word w)

/-- A word with its prefix, the digits in capitals. -/
def upper (w : Word) : String := String.ofList ('0' :: 'x' :: (word w).map Char.toUpper)

theorem digit_digitChar {n : Nat} (h : n < 16) :
    isDigit n.digitChar = true ∧ digit n.digitChar = n := by
  rcases n with _ | _ | _ | _ | _ | _ | _ | _ | _ | _ | _ | _ | _ | _ | _ | _ | n <;>
    first | decide | omega

theorem value_append_singleton (t : List Char) (c : Char) :
    value (t ++ [c]) = 16 * value t + digit c := by
  simp [value]

theorem le_foldl_digits (n : Nat) (t : List Char) :
    n ≤ t.foldl (fun n c => 16 * n + digit c) n := by
  induction t generalizing n with
  | nil => simp
  | cons c rest ih =>
    have h := ih (16 * n + digit c)
    simp only [List.foldl_cons]
    omega

/-- What is read goes on from a number, has digits only, and is within the limit. -/
theorem readDigits?_eq_some_iff {n k : Nat} (hn : n ≤ limit) {t : List Char} :
    readDigits? n t = some k ↔
      t.all isDigit = true ∧ t.foldl (fun n c => 16 * n + digit c) n = k ∧ k ≤ limit := by
  induction t generalizing n with
  | nil =>
    simp only [readDigits?, Option.some.injEq, List.all_nil, List.foldl_nil, true_and]
    exact ⟨fun h => ⟨h, h ▸ hn⟩, And.left⟩
  | cons c rest ih =>
    rw [readDigits?]
    split
    · next hc =>
      simp only [Bool.and_eq_true, decide_eq_true_eq] at hc
      rw [ih hc.2]
      simp [hc.1]
    · next hc =>
      have hle := le_foldl_digits (16 * n + digit c) rest
      simp only [Bool.and_eq_true, decide_eq_true_eq, not_and] at hc
      simp only [reduceCtorEq, List.all_cons, List.foldl_cons, Bool.and_eq_true, false_iff, not_and]
      intro hd hk
      have := hc hd.1
      omega

/-- The digits of a number are digits, and have its value. -/
theorem value_hex (n : Nat) : (hex n).all isDigit = true ∧ value (hex n) = n := by
  induction n using Nat.strongRecOn with
  | ind n ih =>
    by_cases h : n < 16
    · have hd := digit_digitChar h
      simp [hex, Nat.toDigits_of_lt_base h, value, hd]
    · have hs : hex n = hex (n / 16) ++ [(n % 16).digitChar] :=
        Nat.toDigits_of_base_le (by decide) (by omega)
      have hd := digit_digitChar (Nat.mod_lt n (by decide : 16 > 0))
      have hi := ih (n / 16) (by omega)
      constructor
      · rw [hs, List.all_append, hi.1]
        simp [hd.1]
      · rw [hs, value_append_singleton, hi.2, hd.2]
        omega

theorem hex_ne_nil (n : Nat) : hex n ≠ [] := by
  by_cases h : n < 16
  · simp [hex, Nat.toDigits_of_lt_base h]
  · rw [hex, Nat.toDigits_of_base_le (by decide) (by omega)]
    simp

theorem not_prefixed_hex (n : Nat) (rest : List Char) : hex n ≠ '0' :: 'x' :: rest := by
  intro h
  have hall := (value_hex n).1
  rw [h] at hall
  simp [isDigit] at hall

theorem readMagnitude?_hex {n : Nat} (h : n ≤ limit) : readMagnitude? (hex n) = some n := by
  have hv := value_hex n
  have hm : (match hex n with
      | '0' :: 'x' :: rest => rest
      | _ => hex n) = hex n := by
    split
    · rename_i rest heq
      exact absurd heq (not_prefixed_hex n rest)
    · rfl
  have hr : readDigits? 0 (hex n) = some n :=
    (readDigits?_eq_some_iff (Nat.zero_le _)).mpr ⟨hv.1, hv.2, h⟩
  simp [readMagnitude?, hm, hr, hex_ne_nil]

theorem hex_ne_minus (n : Nat) (rest : List Char) : hex n ≠ '-' :: rest := by
  intro h
  have hall := (value_hex n).1
  rw [h] at hall
  simp [isDigit] at hall

theorem read?_hex {n : Nat} (h : n ≤ limit) : read? (hex n) = some (n : Int) := by
  unfold read?
  split
  · rename_i rest heq
    exact absurd heq (hex_ne_minus n rest)
  · rw [readMagnitude?_hex h]
    rfl

/-- An integer that was written is read back, as long as its magnitude is within the limit. -/
theorem read?_signed {i : Int} (h : i.natAbs ≤ limit) : read? (signed i) = some i := by
  unfold signed
  split
  · have hm : read? ('-' :: hex i.natAbs) = some (-(i.natAbs : Int)) := by
      simp [read?, readMagnitude?_hex h]
    rw [hm, Option.some.injEq]
    omega
  · rw [read?_hex h]
    simp only [Option.some.injEq]
    omega

end Numeral

end WordMachine
