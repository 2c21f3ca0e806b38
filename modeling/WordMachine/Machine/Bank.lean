import WordMachine.Machine.Device

/-!
# Banks of devices

Devices that reach each other are kept in numbered slots. While a processor acts, its slot is
empty: it is the one device that it does not reach over the bank.

A requester that asks a processor of its own id is taken for that processor, and sent on to where
the address leads from there.

A bank fails when the number of a page overflows. It leaves the devices as they are, and it
remembers that it has failed, so that no processor goes on with what it has read.

## Main statements

* `Bank.get?_update`: a change to one slot leaves the others alone
* `Bank.ext_get?`: a bank is what is in its slots
-/

namespace WordMachine

/-- Devices in slots. -/
structure Bank where
  slots : Array (Option Device) := #[]
  /-- Whether the number of a page has overflown. -/
  hasFailed : Bool := false
  deriving DecidableEq

namespace Bank

/-- The bank that holds the given devices, from slot 0 on. -/
def ofList (ds : List Device) : Bank := { slots := (ds.map some).toArray }

/-- The device in a slot. -/
def get? (b : Bank) (slot : Nat) : Option Device := b.slots[slot]?.join

/-- The bank with a device put into a slot. -/
def put (b : Bank) (slot : Nat) (d : Device) : Bank :=
  { b with slots := b.slots.setIfInBounds slot (some d) }

/-- The bank with a slot made empty. -/
def vacate (b : Bank) (slot : Nat) : Bank := { b with slots := b.slots.setIfInBounds slot none }

/-- The bank with a change made to the device in a slot. -/
def update (b : Bank) (slot : Nat) (f : Device → Device) : Bank :=
  { b with slots := b.slots.modify slot fun d => d.map f }

/-- The bank as an access leaves it that may have failed. -/
def failIf (b : Bank) (failed : Bool) : Bank := { b with hasFailed := b.hasFailed || failed }

/-- Where an address leads a requester that asks the device in a slot, over at most so many
processors of its own id. -/
def follow (b : Bank) (requester addr : Word) : Nat → Nat → Option (Nat × Place)
  | 0, _ => none
  | hops + 1, slot =>
    match b.get? slot with
    | some (.processor p) =>
      if requester = p.id then
        match p.route addr with
        | .own place => some (slot, place)
        | .peer number place =>
          match p.peer? number, place with
          | none, _ => none
          | some next, .memory _ => b.follow requester addr hops next
          | some next, .control index => some (next, .control index)
      else some (slot, .memory addr)
    | _ => some (slot, .memory addr)

/-- Where a requester's place on the device in a slot is found. No way is longer than the bank has
slots. -/
def reach (b : Bank) (requester : Word) (slot : Nat) : Place → Option (Nat × Place)
  | .memory addr => b.follow requester addr b.slots.size slot
  | .control index => some (slot, .control index)

/-- What a requester reads at a place of the device in a slot, and the bank behind it. Where there
is nothing, it reads zero. -/
def read (b : Bank) (requester : Word) (slot : Nat) (place : Place) : Word × Bank :=
  match b.reach requester slot place with
  | none => (0, b)
  | some (slot, place) =>
    match b.get? slot with
    | none => (0, b)
    | some d =>
      let (w, e) := d.read requester place
      (w, (b.put slot e).failIf (d.overflows requester place))

/-- The bank behind a requester's write to a place of the device in a slot. -/
def write (b : Bank) (requester : Word) (slot : Nat) (place : Place) (w : Word) : Bank :=
  match b.reach requester slot place with
  | none => b
  | some (slot, place) =>
    let failed := (b.get? slot).any (·.overflows requester place)
    (b.update slot fun d => d.write requester place w).failIf failed

/-- The number that the next device put on a processor's bank gets. -/
def nextIndex (p : Processor) : Word := UInt16.ofNat (p.peers.length + 1)

/-- Puts the device in one slot on the bank of the processor in another. -/
def attach (b : Bank) (cpu device : Nat) : Bank :=
  match b.get? cpu with
  | some (.processor p) =>
    let b := b.update device fun d => d.withControl (d.control.setBankIndex (nextIndex p))
    b.update cpu fun
      | .processor p => .processor { p with peers := p.peers ++ [device] }
      | d => d
  | _ => b

@[simp] theorem get?_failIf (b : Bank) (failed : Bool) (slot : Nat) :
    (b.failIf failed).get? slot = b.get? slot := rfl

theorem failIf_false (b : Bank) : b.failIf false = b := by
  rw [failIf, Bool.or_false]

theorem get?_put (b : Bank) (slot other : Nat) (d : Device) :
    (b.put slot d).get? other =
      if slot = other ∧ slot < b.slots.size then some d else b.get? other := by
  simp only [get?, put, Array.getElem?_setIfInBounds]
  by_cases h : slot = other
  · subst h
    by_cases hb : slot < b.slots.size <;> simp [hb]
  · simp [h]

theorem get?_vacate (b : Bank) (slot other : Nat) :
    (b.vacate slot).get? other = if slot = other then none else b.get? other := by
  simp only [get?, vacate, Array.getElem?_setIfInBounds]
  by_cases h : slot = other
  · subst h
    by_cases hb : slot < b.slots.size <;> simp [hb]
  · simp [h]

theorem get?_update (b : Bank) (slot other : Nat) (f : Device → Device) :
    (b.update slot f).get? other =
      if slot = other then (b.get? other).map f else b.get? other := by
  simp only [get?, update, Array.getElem?_modify]
  by_cases h : slot = other
  · subst h
    rcases b.slots[slot]? with _ | _ | d <;> simp
  · simp [h]

theorem size_put (b : Bank) (slot : Nat) (d : Device) :
    (b.put slot d).slots.size = b.slots.size :=
  Array.size_setIfInBounds

theorem size_vacate (b : Bank) (slot : Nat) : (b.vacate slot).slots.size = b.slots.size :=
  Array.size_setIfInBounds

theorem lt_size_of_get? {b : Bank} {slot : Nat} {d : Device} (h : b.get? slot = some d) :
    slot < b.slots.size := by
  refine Nat.lt_of_not_le fun hle => ?_
  rw [get?, Array.getElem?_eq_none hle] at h
  cases h

/-- Banks with the same devices in the same slots are the same, unless one of them has failed. -/
theorem ext_get? {b b' : Bank} (hsize : b.slots.size = b'.slots.size)
    (hfailed : b.hasFailed = b'.hasFailed) (h : ∀ k, b.get? k = b'.get? k) : b = b' := by
  have hslots : b.slots = b'.slots := by
    refine Array.ext hsize fun k hk hk' => ?_
    have hget := h k
    rw [get?, get?, Array.getElem?_eq_getElem hk, Array.getElem?_eq_getElem hk'] at hget
    exact hget
  obtain ⟨slots, failed⟩ := b
  obtain ⟨slots', failed'⟩ := b'
  obtain rfl : slots = slots' := hslots
  obtain rfl : failed = failed' := hfailed
  rfl

/-- To put a device where it is changes nothing. -/
theorem put_self {b : Bank} {slot : Nat} {d : Device} (h : b.get? slot = some d) :
    b.put slot d = b := by
  refine ext_get? (size_put ..) rfl fun k => ?_
  rw [get?_put]
  split
  · next hk => rw [← hk.1, h]
  · rfl

/-- To change a device is to put another one in its place. -/
theorem update_eq_put {b : Bank} {slot : Nat} {d : Device} (h : b.get? slot = some d)
    (f : Device → Device) : b.update slot f = b.put slot (f d) := by
  refine ext_get? (Array.size_modify.trans (size_put ..).symm) rfl fun k => ?_
  rw [get?_update, get?_put]
  by_cases hk : slot = k
  · rw [if_pos hk, if_pos ⟨hk, lt_size_of_get? h⟩, ← hk, h, Option.map_some]
  · rw [if_neg hk, if_neg fun hand => hk hand.1]

section Found

variable {b : Bank} {requester : Word} {slot found : Nat} {place there : Place} {d : Device}
  (hreach : b.reach requester slot place = some (found, there)) (hd : b.get? found = some d)

include hreach hd

/-- A reading requester changes the device at which it finds a place, and may make the bank fail. -/
theorem read_of_found :
    b.read requester slot place = ((d.read requester there).1,
      (b.put found (d.read requester there).2).failIf (d.overflows requester there)) := by
  rw [read, hreach]
  dsimp only
  rw [hd]

theorem write_of_found (w : Word) :
    b.write requester slot place w =
      (b.put found (d.write requester there w)).failIf (d.overflows requester there) := by
  rw [write, hreach]
  dsimp only
  rw [hd, Option.any_some, update_eq_put hd]

end Found

/-- To take a device out and to put it back changes nothing. -/
theorem put_vacate {b : Bank} {slot : Nat} {d : Device} (h : b.get? slot = some d) :
    (b.vacate slot).put slot d = b := by
  refine ext_get? ((size_put ..).trans (size_vacate ..)) rfl fun k => ?_
  rw [get?_put, get?_vacate]
  by_cases hk : slot = k
  · rw [if_pos ⟨hk, (size_vacate b slot).symm ▸ lt_size_of_get? h⟩, ← hk, h]
  · rw [if_neg fun hand => hk hand.1, if_neg hk]

/-- Where there is no device, one may be put and taken out again. -/
theorem vacate_put {b : Bank} {slot : Nat} (h : b.get? slot = none) (d : Device) :
    (b.put slot d).vacate slot = b := by
  refine ext_get? ((size_vacate ..).trans (size_put ..)) rfl fun k => ?_
  rw [get?_vacate, get?_put]
  by_cases hk : slot = k
  · rw [if_pos hk, ← hk, h]
  · rw [if_neg hk, if_neg fun hand => hk hand.1]

end Bank

end WordMachine
