import WordMachine.Flags
import WordMachine.Isa.AluOp
import WordMachine.Text.Numeral

/-!
# Arithmetic

The arithmetic unit takes a source value `a`, a destination value `b` and the word that the last
result spilled, and computes in one of two modes: words stand for natural numbers, or for integers
in two's complement. Each mode has a path of its own. Words are widened to 32 bits, by zeros or by
copies of the sign, and what is computed there is cut in two: the low word is the result, and the
high word is spilled. Without signs it overflows if the high word is used, and with signs if the low
word, widened again, is something else. A difference without signs is not widened. It is taken
modulo `2 ^ 16`, and a borrow is both its overflow and what it spills.

A division spills its remainder, and a shift spills the bits it pushes out, in the place where the
neighbouring word of a longer number would take them up.
-/

namespace WordMachine

/-- What the arithmetic unit hands back. -/
structure AluResult where
  val : Word
  /-- What the overflow register holds afterwards. -/
  spill : Word
  flags : Flags
  deriving DecidableEq, Repr, Inhabited

namespace AluResult

/-- A result with its flags. -/
def of (val spill : Word) (overflow : Bool) : AluResult := ⟨val, spill, .ofResult val overflow⟩

/-- A result that spills nothing. -/
def plain (val : Word) : AluResult := of val 0 false

/-- The written form of a result. -/
def text (r : AluResult) : String :=
  "OpResult(" ++ Numeral.upper r.val ++ ":" ++ Numeral.upper r.spill ++ ":" ++ r.flags.text ++ ")"

end AluResult

namespace Alu

/-- A word with copies of its sign in front. -/
def widen (w : Word) : Int32 := w.toInt16.toInt32

/-- The lower half of 32 bits. -/
def lowWord (wide : UInt32) : Word := wide.toUInt16

/-- The upper half of 32 bits. -/
def highWord (wide : UInt32) : Word := (wide >>> 16).toUInt16

/-- A result of 32 bits, read without a sign. -/
def ofUnsigned (wide : UInt32) : AluResult := .of (lowWord wide) (highWord wide) (0xFFFF < wide)

/-- A result of 32 bits, read with a sign. -/
def ofSigned (wide : Int32) : AluResult :=
  let val := lowWord wide.toUInt32
  .of val (highWord wide.toUInt32) (wide != widen val)

/-- The sum of two words. -/
def add (isSigned : Bool) (a b : Word) : AluResult :=
  if isSigned then ofSigned (widen a + widen b) else ofUnsigned (a.toUInt32 + b.toUInt32)

/-- `b` less `a`. -/
def sub (isSigned : Bool) (a b : Word) : AluResult :=
  if isSigned then ofSigned (widen b - widen a)
  else .of (b - a) (if b < a then 0xFFFF else 0) (b < a)

/-- The product of two words. -/
def mul (isSigned : Bool) (a b : Word) : AluResult :=
  if isSigned then ofSigned (widen a * widen b) else ofUnsigned (a.toUInt32 * b.toUInt32)

/-- The quotient toward zero of `b` by `a`, with the remainder spilled. Division by zero gives the
largest word, spills all of `b` and overflows. -/
def div (isSigned : Bool) (a b : Word) : AluResult :=
  if a = 0 then .of 0xFFFF b true
  else if isSigned then
    .of (b.toInt16 / a.toInt16).toUInt16 (b.toInt16 % a.toInt16).toUInt16 false
  else .of (b / a) (b % a) false

/-- `b` shifted up by `a` places, with the bits that leave it spilled. -/
def shl (a b : Word) : AluResult :=
  if 32 ≤ a then .plain 0
  else
    let wide := b.toUInt32 <<< a.toUInt32
    .of (lowWord wide) (highWord wide) false

/-- `b` shifted down by `a` places, with the bits that leave it spilled at the top. -/
def shr (isSigned : Bool) (a b : Word) : AluResult :=
  if 32 ≤ a then .plain (if isSigned && b &&& 0x8000 != 0 then 0xFFFF else 0)
  else
    let wide := b.toUInt32 <<< 16
    let val := if isSigned then lowWord (widen b <<< 16 >>> a.toUInt32.toInt32 >>> 16).toUInt32
      else lowWord (wide >>> a.toUInt32 >>> 16)
    .of val (lowWord (wide >>> a.toUInt32)) false

/-- The result of an operation on the source value `a` and the destination value `b`. Whether it
is stored is for the caller to decide. -/
def eval (op : AluOp) (a b spill : Word) (isSigned : Bool) : AluResult :=
  match op with
  | .inv => .plain (~~~a)
  | .and => .plain (b &&& a)
  | .or => .plain (b ||| a)
  | .xor => .plain (b ^^^ a)
  | .neg => .plain (-a)
  | .shl => shl a b
  | .shr => shr isSigned a b
  | .swap => .plain (Word.swapBytes a)
  | .msb => .plain (a &&& 0xFF00)
  | .lsb => .plain (a &&& 0x00FF)
  | .add => add isSigned a b
  | .sub => sub isSigned a b
  | .mul => mul isSigned a b
  | .div => div isSigned a b
  | .page => .plain (Word.pageBase a)
  | .addc => add isSigned a spill

end Alu

end WordMachine
