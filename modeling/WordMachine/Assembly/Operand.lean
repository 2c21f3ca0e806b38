import WordMachine.Assembly.Error
import WordMachine.Isa.Instruction
import WordMachine.Text.Numeral

/-!
# Operands as written

A token with a dot in it is a value and a kind. A register, a memory operand and the immediate
operand are written as numbers of the kinds `reg`, `mem` and `val`; which side of an instruction
they stand on decides whether they are allowed, so that is asked later.

## Main statements

* `Operand.read?_source`, `Operand.read?_destination`: the written form of an operand is read back
-/

namespace WordMachine

namespace Assembly

/-- The value of a token and its kind in lower case: what stands before and after its last dot. -/
def splitKind? (t : List Char) : Option (List Char × List Char) :=
  (Text.cutLast? '.' t).map fun (value, kind) => (value, kind.map Char.toLower)

/-- The number of a token that is a numeric immediate. -/
def numericImm? (t : List Char) : Option Int :=
  match splitKind? t with
  | some (value, kind) => if kind = "imm".toList then Numeral.read? value else none
  | none => none

/-- A numeric immediate. -/
def immText (i : Int) : List Char := Numeral.signed i ++ ".imm".toList

/-- An operand, before it is known on which side it stands. -/
inductive Operand where
  | pc
  | reg (r : Reg)
  | mem (r : Reg)
  | control
  | val
  deriving DecidableEq, Repr, Inhabited

namespace Operand

/-- The operand of a kind with a number. -/
def ofNumber? (n : Nat) (kind : List Char) : Option Operand :=
  if kind = "reg".toList then
    match n with
    | 0 => some pc
    | 4 => some control
    | n => (Reg.ofNumber? n).map reg
  else if kind = "mem".toList then (Reg.ofNumber? n).map mem
  else if kind = "val".toList then if n = 4 then some val else none
  else none

/-- The operand of a kind with a number as written, of which the low sixteen bits count. -/
def read? (value kind : List Char) : Option Operand :=
  match Numeral.read? value with
  | some i => if 0 ≤ i then ofNumber? (Word.ofInt i).toNat kind else none
  | none => none

/-- The source that an operand is. -/
def source? : Operand → Option Source
  | pc => some .pc
  | reg r => some (.reg r)
  | mem r => some (.mem r)
  | val => some .imm
  | control => none

/-- The destination that an operand is. -/
def destination? : Operand → Option Destination
  | pc => some .pc
  | reg r => some (.reg r)
  | mem r => some (.mem r)
  | control => some .control
  | val => none

/-- Reads a whole token as an operand. -/
def ofToken? (t : List Char) : Option Operand :=
  match splitKind? t with
  | some (value, kind) => read? value kind
  | none => none

theorem read?_source (s : Source) : (ofToken? s.text).bind source? = some s := by
  rcases s with _ | (_ | _ | _) | _ | (_ | _ | _) <;> decide

theorem read?_destination (d : Destination) :
    (ofToken? d.text).bind destination? = some d := by
  rcases d with _ | (_ | _ | _) | _ | (_ | _ | _) <;> decide

end Operand

end Assembly

end WordMachine
