import WordMachine.Flags
import WordMachine.Isa.Operand
import WordMachine.Text.Numeral

/-!
# Registers

Beside the program counter and the three general registers, a processor has the flags and the
spilled word of its last result, and a control word. Bit 8 of the control word turns on the signed
mode of the arithmetic unit. The bit whose number is the top digit of an address turns accesses to
it away from local memory, so bit 8 does both at once.

## Main statements

* `Registers.get_set`: a register holds what was last put into it
-/

namespace WordMachine

/-- The registers of a processor. -/
structure Registers where
  pc : Word := 0
  r1 : Word := 0
  r2 : Word := 0
  r3 : Word := 0
  flags : Flags := {}
  /-- What the last result spilled. -/
  overflow : Word := 0
  control : Word := 0
  deriving DecidableEq, Repr, Inhabited

namespace Registers

/-- The word in a general register. -/
def get (rs : Registers) : Reg → Word
  | .r1 => rs.r1
  | .r2 => rs.r2
  | .r3 => rs.r3

/-- The registers with a word put into a general one. -/
def set (rs : Registers) (r : Reg) (w : Word) : Registers :=
  match r with
  | .r1 => { rs with r1 := w }
  | .r2 => { rs with r2 := w }
  | .r3 => { rs with r3 := w }

/-- Whether arithmetic is signed. -/
def isSigned (rs : Registers) : Bool := rs.control &&& 0x100 != 0

/-- Whether accesses to an address leave local memory. -/
def isBanked (rs : Registers) (addr : Word) : Bool :=
  rs.control &&& ((1 : Word) <<< (addr >>> 12)) != 0

/-- The registers in two lines of text. -/
def text (rs : Registers) : String :=
  "PC:  " ++ Numeral.upper rs.pc ++ " FL:  " ++ rs.flags.text ++ "    OV:  "
    ++ Numeral.upper rs.overflow ++ " CTL: " ++ Numeral.upper rs.control ++ "\n"
    ++ "R1:  " ++ Numeral.upper rs.r1 ++ " R2:  " ++ Numeral.upper rs.r2 ++ " R3:  "
    ++ Numeral.upper rs.r3 ++ "\n"

theorem get_set (rs : Registers) (r s : Reg) (w : Word) :
    (rs.set r w).get s = if r = s then w else rs.get s := by
  cases r <;> cases s <;> rfl

theorem pc_set (rs : Registers) (r : Reg) (w : Word) : (rs.set r w).pc = rs.pc := by
  cases r <;> rfl

theorem control_set (rs : Registers) (r : Reg) (w : Word) :
    (rs.set r w).control = rs.control := by
  cases r <;> rfl

end Registers

end WordMachine
