import WordMachine.Word

/-!
# Operands of an instruction

An instruction names its source and its destination by selectors of three bits. Three general
registers serve both as values and, one for each, as the pointer of a memory operand. Selector 4
means the immediate on the source side and the control word on the destination side.

## Main statements

* `Source.ofSelector_selector`, `Destination.ofSelector_selector`: every operand has its selector
-/

namespace WordMachine

/-- A general register. -/
inductive Reg where
  | r1
  | r2
  | r3
  deriving DecidableEq, Repr, Inhabited

namespace Reg

/-- The number of a register, from 1. -/
def number : Reg → Nat
  | r1 => 1
  | r2 => 2
  | r3 => 3

/-- The register of a number, where there is one. -/
def ofNumber? : Nat → Option Reg
  | 1 => some r1
  | 2 => some r2
  | 3 => some r3
  | _ => none

/-- The digit that names a register. -/
def digit : Reg → Char
  | r1 => '1'
  | r2 => '2'
  | r3 => '3'

@[simp] theorem ofNumber?_number (r : Reg) : ofNumber? r.number = some r := by cases r <;> rfl

end Reg

/-- Where an instruction takes its value from. -/
inductive Source where
  /-- The address of the instruction itself. -/
  | pc
  /-- The word that a register points at. -/
  | mem (r : Reg)
  /-- The immediate alone. -/
  | imm
  /-- A register. -/
  | reg (r : Reg)
  deriving DecidableEq, Repr, Inhabited

namespace Source

/-- The three bits that select a source. -/
def selector : Source → Nat
  | pc => 0
  | mem r => r.number
  | imm => 4
  | reg r => r.number + 4

/-- The source that the low three bits of a number select. -/
def ofSelector (n : Nat) : Source :=
  match n % 8 with
  | 0 => pc
  | 1 => mem .r1
  | 2 => mem .r2
  | 3 => mem .r3
  | 4 => imm
  | 5 => reg .r1
  | 6 => reg .r2
  | _ => reg .r3

/-- Whether the source is read from memory. -/
def isMem : Source → Bool
  | mem _ => true
  | _ => false

/-- The written form of a source. -/
def text : Source → List Char
  | pc => "0.reg".toList
  | mem r => r.digit :: ".mem".toList
  | imm => "4.val".toList
  | reg r => r.digit :: ".reg".toList

@[simp] theorem ofSelector_selector (s : Source) : ofSelector s.selector = s := by
  rcases s with _ | (_ | _ | _) | _ | (_ | _ | _) <;> rfl

theorem selector_lt (s : Source) : s.selector < 8 := by
  rcases s with _ | (_ | _ | _) | _ | (_ | _ | _) <;> decide

end Source

/-- Where an instruction puts its result. -/
inductive Destination where
  /-- The program counter: the instruction is a jump. -/
  | pc
  /-- The word that a register points at. -/
  | mem (r : Reg)
  /-- The control word of the processor. -/
  | control
  /-- A register. -/
  | reg (r : Reg)
  deriving DecidableEq, Repr, Inhabited

namespace Destination

/-- The three bits that select a destination. -/
def selector : Destination → Nat
  | pc => 0
  | mem r => r.number
  | control => 4
  | reg r => r.number + 4

/-- The destination that the low three bits of a number select. -/
def ofSelector (n : Nat) : Destination :=
  match n % 8 with
  | 0 => pc
  | 1 => mem .r1
  | 2 => mem .r2
  | 3 => mem .r3
  | 4 => control
  | 5 => reg .r1
  | 6 => reg .r2
  | _ => reg .r3

/-- Whether the result goes to memory. -/
def isMem : Destination → Bool
  | mem _ => true
  | _ => false

/-- The written form of a destination. -/
def text : Destination → List Char
  | pc => "0.reg".toList
  | mem r => r.digit :: ".mem".toList
  | control => "4.reg".toList
  | reg r => r.digit :: ".reg".toList

@[simp] theorem ofSelector_selector (d : Destination) : ofSelector d.selector = d := by
  rcases d with _ | (_ | _ | _) | _ | (_ | _ | _) <;> rfl

theorem selector_lt (d : Destination) : d.selector < 8 := by
  rcases d with _ | (_ | _ | _) | _ | (_ | _ | _) <;> decide

end Destination

end WordMachine
