import WordMachine.Text.Line

/-!
# Limits of instructions

A limit is a number that fits in 64 bits, or one of the words that mean none. Digits are read from
left to right, so of two things that are wrong with a number, the first to be met is told.

## Main statements

* `Limit.readDigits_lt`: a limit that was read fits in 64 bits
-/

namespace WordMachine

/-- Why a text is no limit. -/
inductive LimitError where
  | empty
  | notDigit
  | tooLarge
  deriving DecidableEq, Repr, Inhabited

/-- The wording of an error. -/
def LimitError.message : LimitError → String
  | empty => "cannot parse integer from empty string"
  | notDigit => "invalid digit found in string"
  | tooLarge => "number too large to fit in target type"

namespace Limit

/-- The number that the digits of a text go on to make of the number before them. -/
def readDigits : Nat → List Char → Except LimitError Nat
  | n, [] => .ok n
  | n, c :: rest =>
    if c.isDigit then
      let n := 10 * n + (c.toNat - '0'.toNat)
      if n < UInt64.size then readDigits n rest else .error .tooLarge
    else .error .notDigit

/-- The number that a text stands for. It may have a plus before it. -/
def readNumber : List Char → Except LimitError Nat
  | [] => .error .empty
  | ['+'] => .error .notDigit
  | '+' :: digits => readDigits 0 digits
  | digits => readDigits 0 digits

/-- Whether a text means that there is no limit. Case makes no difference to the words. -/
def isUnlimited (t : List Char) : Bool :=
  let word := String.ofList (t.map Char.toLower)
  word == "unlimited" || word == "infinity" || t == ['∞']

/-- The limit that a text stands for. -/
def read (t : List Char) : Except LimitError (Option Nat) :=
  if isUnlimited t then .ok none else (readNumber t).map some

/-- The written form of a limit. -/
def text : Option Nat → String
  | none => "∞"
  | some n => toString n

theorem readDigits_lt {n k : Nat} {t : List Char} (hn : n < UInt64.size)
    (h : readDigits n t = .ok k) : k < UInt64.size := by
  induction t generalizing n with
  | nil =>
    cases h
    exact hn
  | cons c t ih =>
    rw [readDigits] at h
    split at h
    · dsimp only at h
      split at h
      · next hlt => exact ih hlt h
      · cases h
    · cases h

end Limit

end WordMachine
