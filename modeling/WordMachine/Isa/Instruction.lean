import WordMachine.Isa.AluOp
import WordMachine.Isa.Layout
import WordMachine.Text.Numeral

/-!
# Instructions

An instruction word is laid out as follows, one letter to a bit.

    0 EE DDD SSS P IIIIII       copy
    1 EE DDD SSS P II AAAA      compute

From left to right these are the class, the effect (E), the destination (D), the source (S), the
push and pop bit (P), the immediates (I) and the operation (A). Without a memory operand there is
nothing to push or pop, and bit P belongs to the immediate; `Layout` has the widths.

The type of the immediates is a parameter: a number once an instruction is complete, a number or a
reference to a label while it is being assembled.

## Main statements

* `Inst.isHalt_halt`: the instruction that stops the processor is known as such
-/

namespace WordMachine

/-- What an instruction does with its source. -/
inductive Opcode where
  /-- Passes it on. -/
  | copy
  /-- Combines it with the destination. -/
  | compute (op : AluOp)
  deriving DecidableEq, Repr, Inhabited

/-- The class of an opcode. -/
def Opcode.cls : Opcode → Class
  | .copy => .copy
  | .compute _ => .compute

/-- An instruction with immediates of some type. -/
@[ext]
structure Instruction (ι : Type) where
  opcode : Opcode
  src : Source
  dst : Destination
  srcImm : ι
  dstImm : ι
  effect : Effect
  /-- Whether a memory operand moves its pointer. -/
  push : Bool
  deriving DecidableEq, Repr, Inhabited

namespace Instruction

variable {ι : Type}

/-- The class of an instruction. -/
def cls (i : Instruction ι) : Class := i.opcode.cls

/-- The layout of an instruction's immediates. -/
def layout (i : Instruction ι) : Layout := .of i.cls i.src i.dst

/-- Whether an operand is memory. -/
def hasMem (i : Instruction ι) : Bool := i.src.isMem || i.dst.isMem

/-- Whether the source pointer moves. A memory destination takes precedence: with one, the
destination pointer moves instead. -/
def isPop (i : Instruction ι) : Bool := i.push && i.src.isMem && !i.dst.isMem

end Instruction

/-- A complete instruction. -/
abbrev Inst := Instruction Int

namespace Inst

/-- The word of an instruction. An immediate that does not fit loses its upper bits, and a push
without a memory operand is dropped. -/
def encode (i : Inst) : Word :=
  let head : Word := match i.opcode with
    | .copy => 0
    | .compute op => 0x8000 ||| UInt16.ofNat op.code
  let push : Word := if i.push && i.hasMem then 0x0040 else 0
  head ||| i.effect.encode ||| UInt16.ofNat i.dst.selector <<< 10
    ||| UInt16.ofNat i.src.selector <<< 7 ||| push ||| i.layout.pack i.cls i.srcImm i.dstImm

/-- The instruction of a word. Every word has one. -/
def decode (w : Word) : Inst :=
  let opcode : Opcode :=
    if w &&& 0x8000 == 0 then .copy else .compute (.ofBits (w &&& 0x000F).toNat)
  let src := Source.ofSelector (w >>> 7).toNat
  let dst := Destination.ofSelector (w >>> 10).toNat
  let imm := (Layout.of opcode.cls src dst).unpack opcode.cls w
  { opcode := opcode
    src := src
    dst := dst
    srcImm := imm.1
    dstImm := imm.2
    effect := .decode w
    push := (src.isMem || dst.isMem) && w &&& 0x0040 != 0 }

/-- Whether an instruction stops the processor: the inversion of the program counter into itself,
without an immediate and under any effect. -/
def isHalt (i : Inst) : Bool :=
  i.opcode == .compute .inv && i.src == .pc && i.dst == .pc && !i.push && i.srcImm == 0

/-- The instruction that stops the processor under every flag. -/
def halt : Inst :=
  { opcode := .compute .inv, src := .pc, dst := .pc, srcImm := 0, dstImm := 0, effect := .always,
    push := false }

theorem isHalt_halt : isHalt halt = true := rfl

/-- The words of an instruction's written form, in order. Whatever an assembler would fill in is
left out: a zero immediate, the effect that always commits, a push that is not asked for. -/
def parts (i : Inst) : List (List Char) :=
  let immediate (v : Int) := Numeral.short v ++ ".imm".toList
  (match i.opcode with
    | .copy => ["copy".toList]
    | .compute op => ["compute".toList, op.name ++ ".op".toList])
  ++ [i.src.text]
  ++ (if i.srcImm ≠ 0 ∨ i.src = .imm then [immediate i.srcImm] else [])
  ++ [i.dst.text]
  ++ (if i.dstImm ≠ 0 then [immediate i.dstImm] else [])
  ++ (if i.effect ≠ .always then [i.effect.text] else [])
  ++ (if i.push then [if i.isPop then "pop".toList else "push".toList] else [])

/-- The written form of an instruction. -/
def text (i : Inst) : List Char := Text.unwords i.parts

end Inst

end WordMachine
