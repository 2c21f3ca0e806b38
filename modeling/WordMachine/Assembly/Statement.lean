import WordMachine.Assembly.Label
import WordMachine.Isa.Instruction

/-!
# Statements

A line of source comes to statements: the definition of a label, a block of data, or an operation.
An operation is an instruction whose immediates may still be references to labels. Its operands
are known, so its layout is, and with it which numbers its immediates may turn out to be.

A statement occupies a number of words that does not depend on the addresses of labels. That is
why addresses can be given out before any word is.

## Main statements

* `DataItem.length_resolve`: an item of data comes to as many words as were kept for it
-/

namespace WordMachine

namespace Assembly

/-- An immediate as written. -/
inductive Imm where
  | num (value : Int)
  | ref (r : LabelRef)
  deriving DecidableEq, Repr, Inhabited

namespace Imm

/-- The immediate of an operand that has none beside it. -/
def zero : Imm := num 0

/-- The number of an immediate that is written as one. -/
def num? : Imm → Option Int
  | num value => some value
  | ref _ => none

/-- The number that an immediate of the word at `address` stands for. -/
def resolve (i : Imm) (labels : LabelMap) (address : Word) : Except LineError Int :=
  match i with
  | num value => .ok value
  | ref r => r.resolve labels address

end Imm

/-- An item of a line of data. -/
inductive DataItem where
  | words (ws : List Word)
  | ref (r : LabelRef)
  deriving DecidableEq, Repr, Inhabited

namespace DataItem

/-- The number of words that an item occupies. -/
def size : DataItem → Nat
  | words ws => ws.length
  | ref _ => 1

/-- The words of an item whose first word is at `address`. -/
def resolve (item : DataItem) (labels : LabelMap) (address : Word) :
    Except LineError (List Word) :=
  match item with
  | words ws => .ok ws
  | ref r => (r.resolve labels address).map fun value => [Word.ofInt value]

theorem length_resolve {item : DataItem} {labels : LabelMap} {address : Word} {ws : List Word}
    (h : item.resolve labels address = .ok ws) : ws.length = item.size := by
  cases item with
  | words vs =>
    cases h
    rfl
  | ref r =>
    cases hr : r.resolve labels address with
    | error e => simp [resolve, hr, Except.map] at h
    | ok value =>
      simp only [resolve, hr, Except.map, Except.ok.injEq] at h
      simp [← h, size]

end DataItem

/-- An instruction with immediates as written. -/
abbrev Operation := Instruction Imm

namespace Operation

/-- The instruction of an operation at `address`, if its immediates turn out to fit. -/
def toInst (op : Operation) (labels : LabelMap) (address : Word) : Except LineError Inst := do
  let srcImm ← checkRange op.layout.sourceRange (← op.srcImm.resolve labels address)
  let dstImm ← checkRange op.layout.destinationRange (← op.dstImm.resolve labels address)
  return { op with srcImm := srcImm, dstImm := dstImm }

/-- The word of an operation at `address`. -/
def encode (op : Operation) (labels : LabelMap) (address : Word) : Except LineError Word :=
  (op.toInst labels address).map Inst.encode

/-- The word that keeps the place of an operation while labels have no addresses. -/
def placeholder : Word := 0

end Operation

/-- What a line comes to. -/
inductive Statement where
  | label (name : Label)
  | data (items : List DataItem)
  | op (op : Operation)
  deriving DecidableEq, Repr, Inhabited

namespace Statement

/-- The number of words that a statement occupies. -/
def size : Statement → Nat
  | label _ => 0
  | data items => items.foldr (fun item n => item.size + n) 0
  | op _ => 1

/-- Whether a statement is an operation. -/
def isOp : Statement → Bool
  | op _ => true
  | _ => false

end Statement

end Assembly

end WordMachine
