import WordMachine.Machine.Processor

/-!
# Devices

A device is a processor or a plain block of memory. A requester finds its own memory where it is,
and a controller finds the sixteen pages from the accessed page on. Nobody else finds anything.

The number of a page of this window is a sum of two words, and the accessed page may be any word. A
sum that is not a word stops everything: there is no page to be read or written, and no answer
either. A device reads as zero and takes no write in this case, and it is for the bank to remember
that nothing goes on from there.

Word 6 of a block's control block is its number of pages.

## Main statements

* `ControlBlock.resolve_eq_refused_iff`: memory is open to the device and to its controller alone
-/

namespace WordMachine

/-- Where an address lies in the memory of a device. -/
inductive Location where
  | found (page offset : Nat)
  /-- The memory is not open to the requester. -/
  | refused
  /-- The number of the page is not a word. -/
  | overflow
  deriving DecidableEq, Repr, Inhabited

namespace ControlBlock

/-- Where a requester's address lies. -/
def resolve (c : ControlBlock) (requester addr : Word) : Location :=
  if requester = c.id then .found (Word.page addr) (Word.offset addr)
  else if c.isPrivileged requester then
    match Word.checkedAdd c.accessedPage (addr >>> 8 &&& 0x000F) with
    | some page => .found page.toNat (Word.offset addr)
    | none => .overflow
  else .refused

theorem resolve_eq_refused_iff {c : ControlBlock} {requester addr : Word} :
    c.resolve requester addr = .refused ↔ c.isPrivileged requester = false := by
  rw [resolve]
  split
  · next h => simp [isPrivileged, h]
  · split
    · next h =>
      rw [h]
      split <;> simp
    · next h => simp [h]

end ControlBlock

/-- A block of memory that is reached over the bank. -/
structure BlockMemory where
  control : ControlBlock
  memory : Memory
  deriving DecidableEq

namespace BlockMemory

/-- What may be done with the control words of a block. -/
def masks : AccessMasks :=
  let basic : AccessMasks := {}
  { basic with
    externalRead := basic.externalRead ||| 0x40
    privilegedRead := basic.privilegedRead ||| 0x40 }

/-- A block full of zeros. -/
def new (id : Word) (pages : Nat) : BlockMemory :=
  { control := { ControlBlock.new id .blockMemory with masks := masks }
    memory := .blank pages 0 }

/-- The word that stands behind a control word. -/
def live? (d : BlockMemory) : Nat → Option Word
  | 6 => some (UInt16.ofNat d.memory.pages)
  | _ => none

end BlockMemory

/-- A device. -/
inductive Device where
  | processor (p : Processor)
  | block (d : BlockMemory)
  deriving DecidableEq

namespace Device

/-- The control block of a device. -/
def control : Device → ControlBlock
  | processor p => p.control
  | block d => d.control

/-- The memory of a device. -/
def memory : Device → Memory
  | processor p => p.memory
  | block d => d.memory

/-- The id of a device. -/
def id (d : Device) : Word := d.control.id

/-- The device with another control block. -/
def withControl (control : ControlBlock) : Device → Device
  | processor p => processor { p with control := control }
  | block d => block { d with control := control }

/-- The device with a change made to its memory. -/
def mapMemory (f : Memory → Memory) : Device → Device
  | processor p => processor { p with memory := f p.memory }
  | block d => block { d with memory := f d.memory }

/-- What a requester reads in a control word, and the device behind it. -/
def readControl (requester : Word) (index : Nat) : Device → Word × Device
  | processor p =>
    let (w, p) := p.readControl requester index
    (w, processor p)
  | block d =>
    let (w, control) := d.control.read requester index (d.live? (index % 16))
    (w, block { d with control := control })

/-- The device behind a requester's write to a control word. -/
def writeControl (requester : Word) (index : Nat) (w : Word) : Device → Device
  | processor p => processor (p.writeControl requester index w)
  | block d => block { d with control := (d.control.write requester index w).1 }

/-- What a requester reads at an address of the device's memory. -/
def readMemory (requester addr : Word) (d : Device) : Word :=
  match d.control.resolve requester addr with
  | .found page offset => (d.memory.read page offset).getD 0
  | _ => 0

/-- The device behind a requester's write to an address of its memory. -/
def writeMemory (requester addr w : Word) (d : Device) : Device :=
  match d.control.resolve requester addr with
  | .found page offset => d.mapMemory fun memory => memory.write page offset w
  | _ => d

/-- Whether the number of a page overflows when a requester asks for a place. -/
def overflows (requester : Word) (place : Place) (d : Device) : Bool :=
  match place with
  | .memory addr => d.control.resolve requester addr = .overflow
  | .control _ => false

/-- What a requester reads at a place, and the device behind it. -/
def read (requester : Word) (place : Place) (d : Device) : Word × Device :=
  match place with
  | .memory addr => (d.readMemory requester addr, d)
  | .control index => d.readControl requester index

/-- The device behind a requester's write to a place. -/
def write (requester : Word) (place : Place) (w : Word) (d : Device) : Device :=
  match place with
  | .memory addr => d.writeMemory requester addr w
  | .control index => d.writeControl requester index w

@[simp] theorem control_mapMemory (f : Memory → Memory) (d : Device) :
    (d.mapMemory f).control = d.control := by
  cases d <;> rfl

@[simp] theorem memory_mapMemory (f : Memory → Memory) (d : Device) :
    (d.mapMemory f).memory = f d.memory := by
  cases d <;> rfl

@[simp] theorem memory_withControl (c : ControlBlock) (d : Device) :
    (d.withControl c).memory = d.memory := by
  cases d <;> rfl

@[simp] theorem control_withControl (c : ControlBlock) (d : Device) :
    (d.withControl c).control = c := by
  cases d <;> rfl

end Device

end WordMachine
