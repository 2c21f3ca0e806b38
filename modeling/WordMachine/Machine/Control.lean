import WordMachine.Word

/-!
# Control blocks

Every device has sixteen control words, through which others find out what it is and take hold of
it. Word 0 is its id, and is never written. Word 2 is the id of its controller, or zero. A device
without a controller is bound by the first other device that writes to any of its words, and from
then on takes writes from that controller alone, until word 2 is written.

Four masks say which of the words may be read by anyone, read and written by the controller, and
written by the device itself. Bit `i` of a mask stands for word `i`.

## Main statements

* `ControlBlock.write_id`: no write changes the id
* `ControlBlock.write_of_heeds`, `ControlBlock.write_of_not_heeds`: only its controller, or whoever
  comes first, and the device itself write to a device
* `ControlBlock.bound_write`: who holds a device behind a write
-/

namespace WordMachine

/-- The sorts of device. -/
inductive DeviceType where
  | invalid
  | processor
  | blockMemory
  | blockIo
  | serial
  | hid
  | terminal
  deriving DecidableEq, Repr, Inhabited

namespace DeviceType

/-- The number of a sort. -/
def code : DeviceType → Nat
  | invalid => 0
  | processor => 1
  | blockMemory => 2
  | blockIo => 3
  | serial => 4
  | hid => 5
  | terminal => 6

/-- The sort with a number. A number without a sort is invalid. -/
def ofCode : Nat → DeviceType
  | 1 => processor
  | 2 => blockMemory
  | 3 => blockIo
  | 4 => serial
  | 5 => hid
  | 6 => terminal
  | _ => invalid

/-- The name of a sort. -/
def text : DeviceType → String
  | invalid => "Invalid"
  | processor => "Processor"
  | blockMemory => "BlockMemory"
  | blockIo => "BlockIo"
  | serial => "Serial"
  | hid => "Hid"
  | terminal => "Terminal"

@[simp] theorem ofCode_code (t : DeviceType) : ofCode t.code = t := by cases t <;> rfl

end DeviceType

/-- Who may do what with the control words of a device. -/
structure AccessMasks where
  /-- What anyone may read. -/
  externalRead : Word := 0x003F
  /-- What the controller and the device itself may read. -/
  privilegedRead : Word := 0x003F
  /-- What the controller may write. -/
  privilegedWrite : Word := 0x002C
  /-- What the device itself may write. -/
  internalWrite : Word := 0x0030
  deriving DecidableEq, Repr, Inhabited

/-- Whether a mask has the bit of a control word. -/
def AccessMasks.allows (mask : Word) (index : Nat) : Bool := mask.toNat.testBit index

/-- The control words of a device. -/
structure ControlBlock where
  words : Vector Word 16
  masks : AccessMasks := {}
  deriving DecidableEq, Repr

namespace ControlBlock

/-- The control block of a new device. -/
def new (id : Word) (type : DeviceType) : ControlBlock :=
  { words := ((Vector.replicate 16 0).set 0 id).set 1 (UInt16.ofNat type.code) }

/-- A control word. Only the low four bits of its number count. -/
def get (c : ControlBlock) (index : Nat) : Word :=
  have : index % 16 < 16 := Nat.mod_lt _ (by decide)
  c.words[index % 16]

/-- The block with a control word changed, whatever the masks say. -/
def set (c : ControlBlock) (index : Nat) (w : Word) : ControlBlock :=
  { c with words := c.words.set (index % 16) w (Nat.mod_lt _ (by decide)) }

/-- The id of the device. -/
def id (c : ControlBlock) : Word := c.get 0

/-- The sort of the device. -/
def deviceType (c : ControlBlock) : DeviceType := .ofCode ((c.get 1).toNat % 256)

/-- The number of the device on the bank it was last put on. -/
def bankIndex (c : ControlBlock) : Word := UInt16.ofNat ((c.get 1).toNat / 256)

/-- The block with a number on a bank, of which the low byte is kept. -/
def setBankIndex (c : ControlBlock) (index : Word) : ControlBlock :=
  c.set 1 (UInt16.ofNat (index.toNat % 256 * 256 + (c.get 1).toNat % 256))

/-- The id of the controller, or zero. -/
def bound (c : ControlBlock) : Word := c.get 2

/-- The page at which the controller's window begins. -/
def accessedPage (c : ControlBlock) : Word := c.get 3

/-- Whether a requester is the device itself or its controller. -/
def isPrivileged (c : ControlBlock) (requester : Word) : Bool :=
  requester == c.id || (requester != 0 && requester == c.bound)

/-- Whether a requester may read a control word. Everyone may read the id. -/
def mayRead (c : ControlBlock) (requester : Word) (index : Nat) : Bool :=
  let mask := if c.isPrivileged requester then c.masks.privilegedRead else c.masks.externalRead
  index % 16 == 0 || AccessMasks.allows mask (index % 16)

/-- What a requester reads in a control word, and the block behind it. A word that has a live
`source` is brought up to date first. A word that may not be read is zero. -/
def read (c : ControlBlock) (requester : Word) (index : Nat) (source : Option Word) :
    Word × ControlBlock :=
  if c.mayRead requester index then
    let c := match source with
      | some live => c.set index live
      | none => c
    (c.get index, c)
  else (0, c)

/-- The block behind a requester's write to a control word. The flag tells whether it was a write
of the controller's that was let through, which the device is to act on. -/
def write (c : ControlBlock) (requester : Word) (index : Nat) (w : Word) : ControlBlock × Bool :=
  let index := index % 16
  if index = 0 then (c, false)
  else if requester = c.id then
    (if AccessMasks.allows c.masks.internalWrite index then c.set index w else c, false)
  else if requester = 0 then (c, false)
  else
    let c := if c.bound = 0 then c.set 2 requester else c
    if c.bound ≠ requester then (c, false)
    -- The controller may always let go, or hand over to another device.
    else if index = 2 ∨ AccessMasks.allows c.masks.privilegedWrite index then (c.set index w, true)
    else (c, false)

theorem get_set (c : ControlBlock) (i j : Nat) (w : Word) :
    (c.set i w).get j = if i % 16 = j % 16 then w else c.get j := by
  simp [get, set, Vector.getElem_set]

theorem masks_set (c : ControlBlock) (i : Nat) (w : Word) : (c.set i w).masks = c.masks := rfl

theorem id_set {i : Nat} (h : i % 16 ≠ 0) (c : ControlBlock) (w : Word) :
    (c.set i w).id = c.id := by
  simp [id, get_set, h]

theorem write_id (c : ControlBlock) (requester : Word) (index : Nat) (w : Word) :
    (c.write requester index w).1.id = c.id := by
  simp only [write]
  have h2 : 2 % 16 ≠ 0 := by decide
  by_cases h0 : index % 16 = 0
  · simp [h0]
  · have hm : index % 16 % 16 ≠ 0 := by omega
    simp only [h0, if_false]
    split
    · split
      · exact id_set hm _ _
      · rfl
    · split
      · rfl
      · split <;> split <;> (try split) <;> simp [id_set hm, id_set h2]

theorem bound_set (c : ControlBlock) (i : Nat) (w : Word) :
    (c.set i w).bound = if i % 16 = 2 then w else c.bound := by
  simp [bound, get_set]

/-! ### Reads -/

theorem read_none (c : ControlBlock) (requester : Word) (index : Nat) :
    (c.read requester index none).2 = c := by
  rw [read]
  split <;> rfl

theorem read_some (c : ControlBlock) (requester : Word) (index : Nat) (live : Word) :
    (c.read requester index (some live)).2 =
      if c.mayRead requester index then c.set index live else c := by
  rw [read]
  split <;> rfl

/-! ### Writes -/

/-- Whether a device takes writes to its control words from somebody else: it does from its
controller, and as long as it has none from whoever comes first. -/
def Heeds (c : ControlBlock) (requester : Word) : Prop :=
  requester ≠ c.id ∧ requester ≠ 0 ∧ (c.bound = 0 ∨ c.bound = requester)

instance (c : ControlBlock) (requester : Word) : Decidable (c.Heeds requester) :=
  inferInstanceAs (Decidable (_ ∧ _ ∧ _))

/-- The block of a device that a requester has taken hold of, if it was free. -/
def claim (c : ControlBlock) (requester : Word) : ControlBlock :=
  if c.bound = 0 then c.set 2 requester else c

theorem masks_claim (c : ControlBlock) (requester : Word) :
    (c.claim requester).masks = c.masks := by
  rw [claim]
  split <;> rfl

theorem bound_claim {c : ControlBlock} {requester : Word} (h : c.Heeds requester) :
    (c.claim requester).bound = requester := by
  rw [claim]
  split
  · rw [bound_set]
    rfl
  · next hbound => exact h.2.2.resolve_left hbound

/-- Nobody writes to the id. -/
theorem write_zero {index : Nat} (h : index % 16 = 0) (c : ControlBlock) (requester w : Word) :
    c.write requester index w = (c, false) := by
  simp only [write, h, if_true]

/-- What the device itself writes is not acted on. -/
theorem write_own (c : ControlBlock) (index : Nat) (w : Word) :
    c.write c.id index w =
      (if index % 16 ≠ 0 ∧ AccessMasks.allows c.masks.internalWrite (index % 16) then
        c.set (index % 16) w else c, false) := by
  by_cases h : index % 16 = 0
  · simp [write_zero h, h]
  · simp only [write, h, if_false, if_true, ne_eq, not_false_iff, true_and]

/-- A requester that is heeded takes hold of the device, and may write what a controller may. -/
theorem write_of_heeds {c : ControlBlock} {requester : Word} (h : c.Heeds requester) {index : Nat}
    (hindex : index % 16 ≠ 0) (w : Word) :
    c.write requester index w =
      if index % 16 = 2 ∨ AccessMasks.allows c.masks.privilegedWrite (index % 16) then
        ((c.claim requester).set (index % 16) w, true)
      else (c.claim requester, false) := by
  have hclaim := bound_claim h
  rw [write]
  dsimp only
  rw [if_neg hindex, if_neg h.1, if_neg h.2.1, ← claim, hclaim, masks_claim]
  exact if_neg fun hne => hne rfl

/-- Anybody else writes nothing. -/
theorem write_of_not_heeds {c : ControlBlock} {requester : Word} (hid : requester ≠ c.id)
    (h : ¬ c.Heeds requester) (index : Nat) (w : Word) :
    c.write requester index w = (c, false) := by
  rw [write]
  dsimp only
  rw [if_neg hid]
  split
  · rfl
  · split
    · rfl
    · next hzero =>
      have hbound : c.bound ≠ 0 ∧ c.bound ≠ requester := by
        simpa [Heeds, hid, hzero] using h
      rw [if_neg hbound.1, if_pos hbound.2]

theorem masks_write (c : ControlBlock) (requester : Word) (index : Nat) (w : Word) :
    (c.write requester index w).1.masks = c.masks := by
  by_cases hindex : index % 16 = 0
  · rw [write_zero hindex]
  by_cases hid : requester = c.id
  · subst hid
    rw [write_own]
    dsimp only
    split <;> rfl
  by_cases h : c.Heeds requester
  · rw [write_of_heeds h hindex]
    split
    · exact masks_claim c requester
    · exact masks_claim c requester
  · rw [write_of_not_heeds hid h]

/-- Who holds a device behind a write of somebody else. -/
theorem bound_write {c : ControlBlock} {requester : Word} (hid : requester ≠ c.id) (index : Nat)
    (w : Word) :
    (c.write requester index w).1.bound =
      if c.Heeds requester ∧ index % 16 ≠ 0 then if index % 16 = 2 then w else requester
      else c.bound := by
  by_cases hindex : index % 16 = 0
  · simp [write_zero hindex, hindex]
  by_cases h : c.Heeds requester
  · have hclaim := bound_claim h
    rw [write_of_heeds h hindex]
    by_cases htwo : index % 16 = 2
    · simp [h, htwo, bound_set]
    · split <;> simp [h, hindex, htwo, bound_set, hclaim]
  · rw [write_of_not_heeds hid h, if_neg fun hand => h hand.1]

end ControlBlock

end WordMachine
