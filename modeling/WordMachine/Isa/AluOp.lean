/-!
# Operations of the arithmetic unit

There are sixteen operations, so four bits name each of them and no bits are left over. In the
descriptions `a` is the source value and `b` is the present value of the destination.
-/

namespace WordMachine

/-- An operation of the arithmetic unit. -/
inductive AluOp where
  /-- Every bit of `a` flipped. -/
  | inv
  /-- The bits common to `b` and `a`. -/
  | and
  /-- The bits of `b` and of `a`. -/
  | or
  /-- The bits in which `b` and `a` differ. -/
  | xor
  /-- The negation of `a`. -/
  | neg
  /-- `b` shifted up by `a` places. -/
  | shl
  /-- `b` shifted down by `a` places. -/
  | shr
  /-- `a` with its bytes exchanged. -/
  | swap
  /-- The high byte of `a`, in its place. -/
  | msb
  /-- The low byte of `a`. -/
  | lsb
  /-- `b + a`. -/
  | add
  /-- `b - a`. -/
  | sub
  /-- `b * a`. -/
  | mul
  /-- `b / a`. -/
  | div
  /-- The first address of the page of `a`. -/
  | page
  /-- `a` plus what the last result spilled. -/
  | addc
  deriving DecidableEq, Repr, Inhabited

namespace AluOp

/-- The number of an operation. -/
def code : AluOp → Nat
  | inv => 0
  | and => 1
  | or => 2
  | xor => 3
  | neg => 4
  | shl => 5
  | shr => 6
  | swap => 7
  | msb => 8
  | lsb => 9
  | add => 10
  | sub => 11
  | mul => 12
  | div => 13
  | page => 14
  | addc => 15

/-- The operation that the low four bits of a number select. -/
def ofBits (n : Nat) : AluOp :=
  match n % 16 with
  | 0 => inv
  | 1 => and
  | 2 => or
  | 3 => xor
  | 4 => neg
  | 5 => shl
  | 6 => shr
  | 7 => swap
  | 8 => msb
  | 9 => lsb
  | 10 => add
  | 11 => sub
  | 12 => mul
  | 13 => div
  | 14 => page
  | _ => addc

/-- The operation with a number, where there is one. -/
def ofCode? (i : Int) : Option AluOp :=
  if 0 ≤ i ∧ i < 16 then some (ofBits i.toNat) else none

/-- All operations, in the order of their numbers. -/
def all : List AluOp :=
  [inv, and, or, xor, neg, shl, shr, swap, msb, lsb, add, sub, mul, div, page, addc]

/-- The mnemonic of an operation. -/
def name : AluOp → List Char
  | inv => "inv".toList
  | and => "and".toList
  | or => "or".toList
  | xor => "xor".toList
  | neg => "neg".toList
  | shl => "shl".toList
  | shr => "shr".toList
  | swap => "swap".toList
  | msb => "msb".toList
  | lsb => "lsb".toList
  | add => "add".toList
  | sub => "sub".toList
  | mul => "mul".toList
  | div => "div".toList
  | page => "page".toList
  | addc => "addc".toList

/-- The operation with a mnemonic, where there is one. -/
def ofName? (t : List Char) : Option AluOp := all.find? fun op => op.name == t

@[simp] theorem ofBits_code (op : AluOp) : ofBits op.code = op := by cases op <;> rfl

@[simp] theorem ofName?_name (op : AluOp) : ofName? op.name = some op := by cases op <;> decide

theorem code_lt (op : AluOp) : op.code < 16 := by cases op <;> decide

end AluOp

end WordMachine
