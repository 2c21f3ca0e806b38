import WordMachine.Machine.Control
import WordMachine.Machine.Memory
import WordMachine.Machine.Registers

/-!
# Processors

A processor has a control block like every device, and memory, registers and a state of its own. The
devices on its bank are its peers, numbered from 1 in the order in which they were put there; a
peer is known by the slot in which all devices are kept together.

Through the control words from 7 on, a controller reads and sets the registers. To set the program
counter is to start the processor again, whatever stopped it.

An address whose bank bit is set in the control register leads away from local memory: one whose
first digit is 0 to a control word, of the device that the next two digits number, and any other to
the memory of the peer that its first digit numbers. Device 0 is the processor itself.
-/

namespace WordMachine

/-- What a processor cannot go on from. -/
inductive Fault where
  /-- The program counter points outside local memory. -/
  | fetch (pc : Word)
  deriving DecidableEq, Repr, Inhabited

/-- The wording of a fault. -/
def Fault.message : Fault → String
  | fetch pc => "instruction fetch from unmapped address " ++ Numeral.upper pc

/-- Whether a processor is at work. -/
inductive RunState where
  | running
  | halted
  | aborted
  /-- The answer of a run that was out of steps. -/
  | timeout
  deriving DecidableEq, Repr, Inhabited

namespace RunState

/-- The name of a state. -/
def text : RunState → String
  | running => "Running"
  | halted => "Halted"
  | aborted => "Aborted"
  | timeout => "Timeout"

end RunState

/-- A word of a device. -/
inductive Place where
  /-- A word of its memory, as its requester addresses it. -/
  | memory (addr : Word)
  /-- A control word. -/
  | control (index : Nat)
  deriving DecidableEq, Repr, Inhabited

/-- Where an address leads from a processor. -/
inductive Route where
  /-- To the processor itself. -/
  | own (place : Place)
  /-- To the peer of a number. -/
  | peer (number : Nat) (place : Place)
  deriving DecidableEq, Repr, Inhabited

/-- A processor. -/
structure Processor where
  control : ControlBlock
  memory : Memory
  regs : Registers := {}
  /-- The slots of the devices on the bank. -/
  peers : List Nat := []
  state : RunState := .running
  /-- What the processor was aborted for. -/
  fault : Option Fault := none
  /-- How many instructions were executed. -/
  instructions : Nat := 0
  deriving DecidableEq

namespace Processor

/-- The pages of a processor that takes up the whole address space. -/
def defaultPages : Nat := 256

/-- The control words through which a controller reaches the registers. -/
def remoteMask : Word := 0x1F80

/-- What may be done with the control words of a processor. -/
def masks : AccessMasks :=
  let basic : AccessMasks := {}
  { basic with
    privilegedRead := basic.privilegedRead ||| remoteMask
    privilegedWrite := basic.privilegedWrite ||| remoteMask }

/-- A processor that was just turned on. -/
def new (id : Word) (pages rom : Nat) : Processor :=
  { control := { ControlBlock.new id .processor with masks := masks }
    memory := .blank pages rom }

/-- Loads a program from address 0 on. Whatever the answer, the memory is kept as it was left. -/
def loadWords (p : Processor) (ws : List Word) : Except LoadError Unit × Processor :=
  let (answer, memory) := p.memory.loadWords 0 ws
  (answer, { p with memory := memory })

/-- Loads an image from address 0 on. -/
def loadImage (p : Processor) (bs : List UInt8) : Except LoadError Unit × Processor :=
  let (answer, memory) := p.memory.loadImage 0 bs
  (answer, { p with memory := memory })

/-- The processor with a program loaded from address 0 on. -/
def load (p : Processor) (ws : List Word) : Except LoadError Processor :=
  (p.memory.load 0 ws).map fun memory => { p with memory := memory }

/-- The processor with an image loaded from address 0 on. -/
def loadBytes (p : Processor) (bs : List UInt8) : Except LoadError Processor :=
  (p.memory.loadBytes 0 bs).map fun memory => { p with memory := memory }

/-- The id of a processor. -/
def id (p : Processor) : Word := p.control.id

/-- The word at an address of local memory. -/
def peek (p : Processor) (addr : Word) : Option Word := p.memory.readAt addr

/-- The words from the one that a register points at, each with its address, as far as there is
memory. -/
def stack (p : Processor) (r : Reg) (depth : Nat) : List (Word × Word) :=
  (List.range depth).filterMap fun i =>
    let addr := p.regs.get r + UInt16.ofNat i
    (p.peek addr).map fun w => (addr, w)

/-- The peer of a number. -/
def peer? (p : Processor) : Nat → Option Nat
  | 0 => none
  | n + 1 => p.peers[n]?

/-- Where an address leads. -/
def route (p : Processor) (addr : Word) : Route :=
  if p.regs.isBanked addr then
    match addr.toNat / 4096 with
    | 0 =>
      let place := Place.control (addr.toNat % 16)
      match addr.toNat / 16 with
      | 0 => .own place
      | n => .peer n place
    | n => .peer n (.memory addr)
  else .own (.memory addr)

/-- The register behind a control word. -/
def live? (p : Processor) : Nat → Option Word
  | 0x7 => some p.regs.pc
  | 0x8 => some p.regs.r1
  | 0x9 => some p.regs.r2
  | 0xA => some p.regs.r3
  | 0xB => some p.regs.flags.toWord
  | 0xC => some p.regs.control
  | _ => none

/-- The processor after its controller has written to a control word. -/
def obey (p : Processor) (index : Nat) (w : Word) : Processor :=
  match index with
  | 0x7 => { p with regs := { p.regs with pc := w }, state := .running, fault := none }
  | 0x8 => { p with regs := { p.regs with r1 := w } }
  | 0x9 => { p with regs := { p.regs with r2 := w } }
  | 0xA => { p with regs := { p.regs with r3 := w } }
  | 0xB => { p with regs := { p.regs with flags := .ofWord w } }
  | 0xC => { p with regs := { p.regs with control := w } }
  | _ => p

/-- What a requester reads in a control word, and the processor behind it. -/
def readControl (p : Processor) (requester : Word) (index : Nat) : Word × Processor :=
  let (w, control) := p.control.read requester index (p.live? (index % 16))
  (w, { p with control := control })

/-- The processor behind a requester's write to a control word. -/
def writeControl (p : Processor) (requester : Word) (index : Nat) (w : Word) : Processor :=
  let (control, told) := p.control.write requester index w
  let p := { p with control := control }
  if told then p.obey (index % 16) w else p

theorem instructions_writeControl (p : Processor) (requester : Word) (index : Nat) (w : Word) :
    (p.writeControl requester index w).instructions = p.instructions := by
  rw [writeControl]
  dsimp only
  split
  · unfold obey
    split <;> rfl
  · rfl

theorem route_of_control_eq_zero {p : Processor} (h : p.regs.control = 0) (addr : Word) :
    p.route addr = .own (.memory addr) := by
  simp [route, Registers.isBanked, h]

end Processor

end WordMachine
