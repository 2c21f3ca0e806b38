import WordMachine.Proofs.Steps

/-!
# What a processor asks of other devices

A processor reaches the devices on its bank through requests and in no other way. An instruction
makes three of them at most: one to read its source, one to read its destination, and one to store
its result. Which requests these are is a matter of the processor alone, of where it routes an
address and of what it has read so far, and the devices see nothing but the requests
(`Machine.bank_step`). So whatever no request can do to a device, no step of another processor can
do to it.

A request that arrives at a processor of the requester's own id is sent on, so the device that
answers a request may be another than the one that is asked. `Bank.find` says which. In a bank where
all ids are different, no request is sent on (`Bank.get?_serve_of_ne`).

## Main results

* `Bank.get?_serve`: what a request does to the devices of a bank
* `Machine.bank_step`: what a step does to the other devices is what its requests do
* `Bank.get?_step`: the same for a processor in a slot of the bank
* `Bank.run_succ`: a run is one step after another
-/

namespace WordMachine

/-- What a processor asks of the device in a slot of its bank. -/
inductive Request where
  | read (slot : Nat) (place : Place)
  | write (slot : Nat) (place : Place) (w : Word)
  deriving DecidableEq, Repr

namespace Request

/-- The slot of the device that is asked. -/
def slot : Request → Nat
  | read slot _ => slot
  | write slot _ _ => slot

/-- The place that is asked for. -/
def place : Request → Place
  | read _ place => place
  | write _ place _ => place

/-- Whether nothing is to be written. -/
def isRead : Request → Bool
  | read .. => true
  | write .. => false

/-- The request for another place. -/
def redirect (slot : Nat) (place : Place) : Request → Request
  | read _ _ => read slot place
  | write _ _ w => write slot place w

theorem redirect_self (request : Request) :
    request.redirect request.slot request.place = request := by
  cases request <;> rfl

end Request

/-! ### Devices and banks that are asked -/

namespace Device

/-- A device behind a request. -/
def serve (requester : Word) (d : Device) : Request → Device
  | .read _ place => (d.read requester place).2
  | .write _ place w => d.write requester place w

/-- The masks that all devices of a sort are made with. -/
def kindMasks : Device → AccessMasks
  | processor _ => Processor.masks
  | block _ => BlockMemory.masks

/-- What a device keeps for ever. -/
structure Persists (d e : Device) : Prop where
  id_eq : e.id = d.id
  masks_eq : e.control.masks = d.control.masks
  kindMasks_eq : e.kindMasks = d.kindMasks

namespace Persists

variable {d e f : Device}

theorem refl (d : Device) : d.Persists d := ⟨rfl, rfl, rfl⟩

theorem trans (h : d.Persists e) (h' : e.Persists f) : d.Persists f :=
  ⟨h'.id_eq.trans h.id_eq, h'.masks_eq.trans h.masks_eq, h'.kindMasks_eq.trans h.kindMasks_eq⟩

end Persists

/-- Only one control word of a block is brought up to date. -/
theorem live?_block {d : BlockMemory} {index : Nat} {live : Word} (h : d.live? index = some live) :
    index = 6 ∧ live = UInt16.ofNat d.memory.pages := by
  unfold BlockMemory.live? at h
  split at h
  · exact ⟨rfl, (Option.some.inj h).symm⟩
  · cases h

theorem readControl_block (requester : Word) (index : Nat) (d : BlockMemory) :
    ((block d).readControl requester index).2 =
      block { d with control := (d.control.read requester index (d.live? (index % 16))).2 } := rfl

theorem persists_readControl (requester : Word) (index : Nat) (d : Device) :
    d.Persists (d.readControl requester index).2 := by
  cases d with
  | processor p =>
    have h := p.continues_readControl requester index
    exact ⟨h.id_eq, h.masks_eq, rfl⟩
  | block d =>
    rw [readControl_block]
    cases hlive : d.live? (index % 16) with
    | none =>
      rw [ControlBlock.read_none]
      exact .refl _
    | some live =>
      rw [ControlBlock.read_some]
      split
      · have hindex := (live?_block hlive).1
        exact ⟨ControlBlock.id_set (by omega) d.control live, rfl, rfl⟩
      · exact .refl _

/-- A processor that obeys its controller keeps its control block. -/
theorem control_obey (p : Processor) (index : Nat) (w : Word) :
    (p.obey index w).control = p.control := by
  unfold Processor.obey
  split <;> rfl

theorem control_writeControl (requester : Word) (index : Nat) (w : Word) (d : Device) :
    (d.writeControl requester index w).control = (d.control.write requester index w).1 := by
  cases d with
  | processor p =>
    change (p.writeControl requester index w).control = _
    rw [Processor.writeControl]
    dsimp only
    split
    · exact control_obey ..
    · rfl
  | block d => rfl

theorem kindMasks_writeControl (requester : Word) (index : Nat) (w : Word) (d : Device) :
    (d.writeControl requester index w).kindMasks = d.kindMasks := by
  cases d <;> rfl

theorem persists_writeMemory (requester addr w : Word) (d : Device) :
    d.Persists (d.writeMemory requester addr w) := by
  rw [writeMemory]
  split
  · cases d <;> exact ⟨rfl, rfl, rfl⟩
  · exact .refl d

/-- **No request changes what a device keeps.** -/
theorem persists_serve (requester : Word) (request : Request) (d : Device) :
    d.Persists (d.serve requester request) := by
  rcases request with ⟨_, _ | index⟩ | ⟨_, addr | index, w⟩
  · exact .refl d
  · exact persists_readControl requester index d
  · exact persists_writeMemory requester addr w d
  · refine ⟨?_, ?_, kindMasks_writeControl requester index w d⟩
    · change (d.writeControl requester index w).control.id = _
      rw [control_writeControl]
      exact ControlBlock.write_id ..
    · change (d.writeControl requester index w).control.masks = _
      rw [control_writeControl]
      exact ControlBlock.masks_write ..

theorem persists_foldl_serve (requester : Word) (requests : List Request) (d : Device) :
    d.Persists (requests.foldl (serve requester) d) := by
  induction requests generalizing d with
  | nil => exact .refl d
  | cons request rest ih => exact (d.persists_serve requester request).trans (ih _)

end Device

namespace Bank

/-- A bank behind a request. -/
def serve (requester : Word) (b : Bank) : Request → Bank
  | .read slot place => (b.read requester slot place).2
  | .write slot place w => b.write requester slot place w

/-- The request as it comes to the device that answers it. -/
def find (b : Bank) (requester : Word) (request : Request) : Option Request :=
  (b.reach requester request.slot request.place).map fun found =>
    request.redirect found.1 found.2

theorem size_serve (requester : Word) (b : Bank) (request : Request) :
    (b.serve requester request).slots.size = b.slots.size := by
  cases request with
  | read slot place =>
    rw [serve, read]
    rcases b.reach requester slot place with _ | ⟨slot, place⟩
    · rfl
    · dsimp only
      cases b.get? slot with
      | none => rfl
      | some d => exact size_put ..
  | write slot place w =>
    rw [serve, write]
    rcases b.reach requester slot place with _ | ⟨slot, place⟩
    · rfl
    · exact Array.size_modify

/-- What a reading requester does to a bank in which it finds a place. -/
theorem read_of_reach {b : Bank} {requester : Word} {slot : Nat} {place : Place} {found : Nat}
    {there : Place} (h : b.reach requester slot place = some (found, there)) (k : Nat) :
    (b.read requester slot place).2.get? k =
      if found = k then (b.get? k).map fun d => (d.read requester there).2 else b.get? k := by
  cases hd : b.get? found with
  | none =>
    rw [read, h]
    dsimp only
    rw [hd]
    by_cases hat : found = k
    · rw [if_pos hat, ← hat, hd]
      rfl
    · rw [if_neg hat]
  | some d =>
    rw [read_of_found h hd, get?_failIf, get?_put]
    by_cases hat : found = k
    · rw [if_pos ⟨hat, lt_size_of_get? hd⟩, if_pos hat, ← hat, hd]
      rfl
    · rw [if_neg fun hand => hat hand.1, if_neg hat]

/-- **What a request does.** The device that answers it is changed, and no other. -/
theorem get?_serve (requester : Word) (b : Bank) (request : Request) (k : Nat) :
    (b.serve requester request).get? k =
      match b.find requester request with
      | none => b.get? k
      | some found =>
        if found.slot = k then (b.get? k).map (·.serve requester found) else b.get? k := by
  cases request with
  | read slot place =>
    cases h : b.reach requester slot place with
    | none => simp [serve, read, find, Request.slot, Request.place, h]
    | some found =>
      simp only [serve, find, Request.slot, Request.place, h, Option.map_some, Request.redirect]
      exact read_of_reach h k
  | write slot place w =>
    cases h : b.reach requester slot place with
    | none => simp [serve, write, find, Request.slot, Request.place, h]
    | some found =>
      simp only [serve, find, write, Request.slot, Request.place, h, Option.map_some,
        Request.redirect]
      exact get?_update ..

/-- Requests do not fill a slot. -/
theorem get?_serve_eq_none {requester : Word} {b : Bank} {k : Nat} (h : b.get? k = none)
    (request : Request) : (b.serve requester request).get? k = none := by
  rw [get?_serve, h]
  split
  · rfl
  · split <;> rfl

theorem get?_foldl_serve_eq_none {requester : Word} {b : Bank} {k : Nat} (h : b.get? k = none)
    (requests : List Request) : (requests.foldl (serve requester) b).get? k = none := by
  induction requests generalizing b with
  | nil => exact h
  | cons request rest ih => exact ih (get?_serve_eq_none h request)

/-- A place that is asked for on a device without the id of the requester is found there. -/
theorem reach_of_ne {requester : Word} {b : Bank} {slot : Nat} (hsize : 0 < b.slots.size)
    (h : ∀ p, b.get? slot = some (.processor p) → p.id ≠ requester) (place : Place) :
    b.reach requester slot place = some (slot, place) := by
  cases place with
  | control index => rfl
  | memory addr =>
    obtain ⟨hops, hhops⟩ := Nat.exists_eq_succ_of_ne_zero (Nat.ne_zero_of_lt hsize)
    rw [reach, hhops, follow]
    split
    · next p hp => exact if_neg (h p hp).symm
    · rfl

/-- Where the device that is asked has not the id of the requester, it answers. -/
theorem get?_serve_of_ne {requester : Word} {b : Bank} {request : Request}
    (h : ∀ p, b.get? request.slot = some (.processor p) → p.id ≠ requester) (k : Nat) :
    (b.serve requester request).get? k =
      if request.slot = k then (b.get? k).map (·.serve requester request) else b.get? k := by
  rcases Nat.eq_zero_or_pos b.slots.size with hsize | hsize
  · have hnone (b : Bank) (hsize : b.slots.size = 0) : b.get? k = none := by
      rw [get?, Array.getElem?_eq_none (by omega)]
      rfl
    rw [hnone _ ((size_serve ..).trans hsize), hnone b hsize]
    split <;> rfl
  · rw [get?_serve, find, reach_of_ne hsize h]
    simp only [Option.map_some, Request.redirect_self]

/-- **What requests do** to a device in a bank without the id of the requester is what those do that
are made to it. -/
theorem get?_foldl_serve {requester : Word} {b : Bank}
    (h : ∀ k d, b.get? k = some d → d.id ≠ requester) (requests : List Request) (k : Nat) :
    (requests.foldl (serve requester) b).get? k =
      (b.get? k).map fun d =>
        (requests.filter fun request => request.slot = k).foldl (Device.serve requester) d := by
  induction requests generalizing b with
  | nil => exact Option.map_id'.symm
  | cons request rest ih =>
    have hserve := get?_serve_of_ne fun p hp => h request.slot (.processor p) hp
    have hids (k : Nat) (d : Device) (hd : (b.serve requester request).get? k = some d) :
        d.id ≠ requester := by
      rw [hserve] at hd
      split at hd
      · obtain ⟨e, he, rfl⟩ := Option.map_eq_some_iff.mp hd
        rw [(e.persists_serve requester request).id_eq]
        exact h k e he
      · exact h k d hd
    rw [List.foldl_cons, ih hids, hserve, List.filter_cons]
    by_cases hslot : request.slot = k
    · rw [if_pos hslot, if_pos (decide_eq_true hslot), Option.map_map]
      rfl
    · rw [if_neg hslot, if_neg fun htrue => hslot (of_decide_eq_true htrue)]

end Bank

/-! ### The requests of a step -/

namespace Processor

/-- The slot and the place at which an address is found that leads away from the processor. -/
def peerPlace? (p : Processor) (addr : Word) : Option (Nat × Place) :=
  match p.route addr with
  | .own _ => none
  | .peer number place => (p.peer? number).map fun slot => (slot, place)

/-- The requests for the word at an address. -/
def readRequests (p : Processor) (addr : Word) : List Request :=
  (p.peerPlace? addr).toList.map fun found => .read found.1 found.2

/-- The requests to store a word at an address. -/
def writeRequests (p : Processor) (addr w : Word) : List Request :=
  (p.peerPlace? addr).toList.map fun found => .write found.1 found.2 w

/-- Where addresses lead is a matter of the peers and of the control register. -/
theorem peerPlace?_congr {p q : Processor} (hpeers : q.peers = p.peers)
    (hcontrol : q.regs.control = p.regs.control) (addr : Word) :
    q.peerPlace? addr = p.peerPlace? addr := by
  have hroute : q.route addr = p.route addr := by
    have hbanked : q.regs.isBanked addr = p.regs.isBanked addr := by
      rw [Registers.isBanked, hcontrol, Registers.isBanked]
    rw [route, hbanked, route]
  have hpeer (number : Nat) : q.peer? number = p.peer? number := by
    cases number with
    | zero => rfl
    | succ n => simp only [peer?, hpeers]
  simp only [peerPlace?, hroute, hpeer]

end Processor

namespace Machine

/-- The requests that an instruction makes to take its source value. -/
def sourceRequests (m : Machine) (i : Inst) : List Request :=
  match i.src with
  | .mem r => m.cpu.readRequests (m.cpu.regs.get r + Word.ofInt i.srcImm)
  | _ => []

/-- The requests that a compute makes to take the value of its destination. -/
def destinationRequests (m : Machine) (i : Inst) : List Request :=
  match i.opcode, i.dst with
  | .compute _, .mem r => m.cpu.readRequests (m.cpu.regs.get r + Word.ofInt i.dstImm)
  | _, _ => []

/-- The requests that an instruction makes to take its operands. -/
def operandRequests (m : Machine) (i : Inst) : List Request :=
  m.sourceRequests i ++ m.destinationRequests i

/-- The requests that an instruction makes to store a result. -/
def storeRequests (m : Machine) (i : Inst) (w : Word) : List Request :=
  match i.dst with
  | .mem r =>
    let pointer := if i.push then m.cpu.regs.get r - 1 else m.cpu.regs.get r
    m.cpu.writeRequests (pointer + Word.ofInt i.dstImm) w
  | _ => []

/-- The requests of an instruction, in order. -/
def instRequests (m : Machine) (i : Inst) : List Request :=
  let (w, flags, m') := m.result i
  m.operandRequests i ++ if i.effect.commits i.cls flags then m'.storeRequests i w else []

/-- The requests of a step, in order. -/
def requests (m : Machine) : List Request :=
  if m.isRunning then
    match m.cpu.memory.readAt m.cpu.regs.pc with
    | none => []
    | some w => if (Inst.decode w).isHalt then [] else m.count.instRequests (Inst.decode w)
  else []

theorem bank_read (m : Machine) (addr : Word) :
    (m.read addr).2.bank = (m.cpu.readRequests addr).foldl (Bank.serve m.cpu.id) m.bank := by
  rw [read, Processor.readRequests, Processor.peerPlace?]
  rcases m.cpu.route addr with (_ | _) | ⟨number, place⟩
  · rfl
  · rfl
  · dsimp only
    cases m.cpu.peer? number <;> rfl

theorem bank_write (m : Machine) (addr w : Word) :
    (m.write addr w).bank = (m.cpu.writeRequests addr w).foldl (Bank.serve m.cpu.id) m.bank := by
  rw [write, Processor.writeRequests, Processor.peerPlace?]
  rcases m.cpu.route addr with (_ | _) | ⟨number, place⟩
  · rfl
  · rfl
  · dsimp only
    cases m.cpu.peer? number <;> rfl

theorem bank_sourceValue (m : Machine) (i : Inst) :
    (m.sourceValue i).2.bank = (m.sourceRequests i).foldl (Bank.serve m.cpu.id) m.bank := by
  rw [sourceValue, sourceRequests]
  cases i.src with
  | mem r => exact m.bank_read _
  | _ => rfl

theorem bank_destinationValue {m : Machine} {i : Inst} {op : AluOp} (h : i.opcode = .compute op) :
    (m.destinationValue i).2.bank =
      (m.destinationRequests i).foldl (Bank.serve m.cpu.id) m.bank := by
  rw [destinationValue, destinationRequests, h]
  cases i.dst with
  | mem r => exact m.bank_read _
  | _ => rfl

/-- To take the source value does not change what the destination is asked for. -/
theorem destinationRequests_sourceValue (m : Machine) (i : Inst) :
    (m.sourceValue i).2.destinationRequests i = m.destinationRequests i := by
  have hplace := Processor.peerPlace?_congr (m.reads_sourceValue i).continues.peers_eq
    (congrArg Registers.control (m.regs_sourceValue i))
  rw [destinationRequests, destinationRequests]
  split
  · rw [Processor.readRequests, Processor.readRequests, hplace, regs_sourceValue]
  · rfl

theorem bank_result (m : Machine) (i : Inst) :
    (m.result i).2.2.bank = (m.operandRequests i).foldl (Bank.serve m.cpu.id) m.bank := by
  rw [operandRequests, List.foldl_append, ← bank_sourceValue, ← destinationRequests_sourceValue,
    ← (m.reads_sourceValue i).continues.id_eq]
  cases h : i.opcode with
  | copy =>
    rw [result, destinationRequests, h]
    rfl
  | compute op =>
    rw [← bank_destinationValue h, result, h]
    rfl

theorem bank_store (m : Machine) (i : Inst) (w : Word) :
    (m.store i w).bank = (m.storeRequests i w).foldl (Bank.serve m.cpu.id) m.bank := by
  rw [store, storeRequests]
  cases i.dst with
  | pc =>
    dsimp only
    split <;> rfl
  | mem r =>
    dsimp only
    rw [bank_write]
    cases i.push with
    | false => rfl
    | true =>
      have hplace (addr : Word) :
          (m.withRegs (m.cpu.regs.set r (m.cpu.regs.get r - 1))).cpu.peerPlace? addr
            = m.cpu.peerPlace? addr := by
        apply Processor.peerPlace?_congr
        · rfl
        · exact Registers.control_set ..
      simp only [if_true, regs_withRegs, Registers.get_set, Processor.writeRequests, hplace]
      rfl
  | _ => rfl

theorem bank_exec (m : Machine) (i : Inst) :
    (m.exec i).bank = (m.instRequests i).foldl (Bank.serve m.cpu.id) m.bank := by
  have hmove (m : Machine) : (m.movePointer i).bank = m.bank := by
    obtain ⟨regs, hregs⟩ := m.exists_movePointer_eq i
    rw [hregs]
    rfl
  have hid := (m.continues_result i).id_eq
  rw [exec_eq, finish, instRequests]
  dsimp only
  rw [List.foldl_append, ← bank_result]
  split
  · rw [← hid, ← bank_store, ← hmove (store _ i _)]
    split <;> rfl
  · rfl

/-- A request for an operand writes nothing. -/
theorem isRead_of_mem_operandRequests {m : Machine} {i : Inst} {request : Request}
    (h : request ∈ m.operandRequests i) : request.isRead = true := by
  have hread {addr : Word} (h : request ∈ m.cpu.readRequests addr) : request.isRead = true := by
    obtain ⟨found, -, rfl⟩ := List.mem_map.mp h
    rfl
  rcases List.mem_append.mp h with h | h
  · rw [sourceRequests] at h
    split at h
    · exact hread h
    · cases h
  · rw [destinationRequests] at h
    split at h
    · exact hread h
    · cases h

theorem storeRequests_eq (m : Machine) (i : Inst) (w : Word) :
    ∃ last, m.storeRequests i w = Option.toList last := by
  rw [storeRequests]
  split
  · exact ⟨_, Option.toList_map.symm⟩
  · exact ⟨none, rfl⟩

/-- An instruction asks for its operands first, and at most one request of it writes, which is the
last. -/
theorem instRequests_eq (m : Machine) (i : Inst) :
    ∃ last, m.instRequests i = m.operandRequests i ++ Option.toList last := by
  rw [instRequests]
  dsimp only
  split
  · obtain ⟨last, hlast⟩ := storeRequests_eq (m.result i).2.2 i (m.result i).1
    exact ⟨last, by rw [hlast]⟩
  · exact ⟨none, rfl⟩

theorem requests_eq (m : Machine) : ∃ reads last, m.requests = reads ++ Option.toList last ∧
    ∀ request ∈ reads, request.isRead = true := by
  rw [requests]
  split
  · split
    · exact ⟨[], none, rfl, nofun⟩
    · split
      · exact ⟨[], none, rfl, nofun⟩
      · next w _ _ =>
        obtain ⟨last, hlast⟩ := m.count.instRequests_eq (Inst.decode w)
        exact ⟨_, last, hlast, fun _ => isRead_of_mem_operandRequests⟩
  · exact ⟨[], none, rfl, nofun⟩

/-- **What a step does to the other devices is what its requests do.** -/
theorem bank_step (m : Machine) :
    m.step.bank = m.requests.foldl (Bank.serve m.cpu.id) m.bank := by
  rw [step, requests]
  cases m.isRunning with
  | false => rfl
  | true =>
    cases m.cpu.memory.readAt m.cpu.regs.pc with
    | none => rfl
    | some w =>
      simp only [if_true]
      split
      · rfl
      · exact m.count.bank_exec _

end Machine

namespace Bank

/-- The machine that a processor in a slot is, with all other devices for its bank. -/
def machine (b : Bank) (slot : Nat) (p : Processor) : Machine := ⟨p, b.vacate slot⟩

/-- The requests of a step of the device in a slot, which has none if it is no processor. -/
def requests (b : Bank) (slot : Nat) : List Request :=
  match b.get? slot with
  | some (.processor p) => (b.machine slot p).requests
  | _ => []

theorem size_foldl_serve (requester : Word) (b : Bank) (requests : List Request) :
    (requests.foldl (serve requester) b).slots.size = b.slots.size := by
  induction requests generalizing b with
  | nil => rfl
  | cons request rest ih => rw [List.foldl_cons, ih, size_serve]

/-- **What a step does to a bank.** The processor goes through its step, and every other device
through the requests that the step makes. -/
theorem get?_step {b : Bank} {slot : Nat} {p : Processor} (h : b.get? slot = some (.processor p))
    (k : Nat) :
    (b.step slot).get? k =
      if slot = k then some (.processor (b.machine slot p).step.cpu)
      else ((b.requests slot).foldl (serve p.id) (b.vacate slot)).get? k := by
  have hbank : (b.machine slot p).step.bank
      = (b.requests slot).foldl (serve p.id) (b.vacate slot) := by
    rw [Machine.bank_step, requests, h]
    rfl
  have hsize : slot < (b.machine slot p).step.bank.slots.size := by
    rw [hbank, size_foldl_serve, size_vacate]
    exact lt_size_of_get? h
  rw [step, h, ← hbank]
  change ((b.machine slot p).step.bank.put slot _).get? k = _
  rw [get?_put]
  simp only [hsize, and_true]
  rfl

/-- No step is taken in a slot without a processor. -/
theorem step_of_not_processor {b : Bank} {slot : Nat}
    (h : ∀ p, b.get? slot ≠ some (.processor p)) : b.step slot = b := by
  rw [step]
  split
  · next p hp => exact absurd hp (h p)
  · rfl

/-! ### Runs -/

theorem run_of_not_processor {b : Bank} {slot : Nat}
    (h : ∀ p, b.get? slot ≠ some (.processor p)) (n : Nat) :
    b.run slot n = b := by
  rw [run]
  split
  · next p hp => exact absurd hp (h p)
  · rfl

theorem run_eq {b : Bank} {slot : Nat} {p : Processor} (h : b.get? slot = some (.processor p))
    (n : Nat) :
    b.run slot n = (Machine.run n (b.machine slot p)).bank.put slot
      (.processor (Machine.run n (b.machine slot p)).cpu) := by
  rw [run, h]
  rfl

theorem run_zero (b : Bank) (slot : Nat) : b.run slot 0 = b := by
  by_cases hcpu : ∃ p, b.get? slot = some (.processor p)
  · obtain ⟨p, hp⟩ := hcpu
    rw [run_eq hp]
    exact put_vacate hp
  · exact run_of_not_processor (fun p hp => hcpu ⟨p, hp⟩) 0

/-- The machine behind a step is the machine of the bank behind it. -/
theorem machine_step {b : Bank} {slot : Nat} {p : Processor}
    (h : b.get? slot = some (.processor p)) :
    (b.step slot).get? slot = some (.processor (b.machine slot p).step.cpu) ∧
      (b.step slot).machine slot (b.machine slot p).step.cpu = (b.machine slot p).step := by
  refine ⟨(get?_step h slot).trans (if_pos rfl), ?_⟩
  have hnone : (b.machine slot p).step.bank.get? slot = none := by
    rw [Machine.bank_step]
    exact get?_foldl_serve_eq_none ((b.get?_vacate slot slot).trans (if_pos rfl)) _
  have hstep : b.step slot =
      (b.machine slot p).step.bank.put slot (.processor (b.machine slot p).step.cpu) := by
    rw [step, h]
    rfl
  rw [machine, hstep, vacate_put hnone]

/-- A run is one step after another. -/
theorem run_succ (b : Bank) (slot n : Nat) : b.run slot (n + 1) = (b.step slot).run slot n := by
  by_cases hcpu : ∃ p, b.get? slot = some (.processor p)
  · obtain ⟨p, hp⟩ := hcpu
    obtain ⟨hp', hmachine⟩ := machine_step hp
    rw [run_eq hp, run_eq hp', hmachine, Machine.run_succ]
  · have hnot : ∀ p, b.get? slot ≠ some (.processor p) := fun p hp => hcpu ⟨p, hp⟩
    rw [step_of_not_processor hnot, run_of_not_processor hnot, run_of_not_processor hnot]

end Bank

end WordMachine
