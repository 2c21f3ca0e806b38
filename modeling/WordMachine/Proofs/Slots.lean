import WordMachine.Proofs.RunStates

/-!
# What everything keeps

Devices change in two ways: a processor takes a step, and a device answers a request. Whatever
survives both of these, time after time, survives all that happens on a bank. So a relation between
a device and what becomes of it is only to be looked at for the two (`Device.IsKept`); that it holds
from slot to slot, along requests, steps and runs, is the same for all relations and is shown here
once.

The control block of a processor is a part of it that its own steps come to only through reads and
writes of its own control words, and for this there is one more such argument
(`Machine.control_step`).

## Main results

* `Machine.control_step`: what becomes of a processor's control block in a step of its own
* `Bank.rel_step`, `Bank.rel_act`, `Bank.rel_acts`: what becomes of the device in a slot
-/

namespace WordMachine

/-! ### Control blocks -/

/-- A relation that reads and writes of a processor's own control words keep. -/
structure ControlBlock.IsKept (R : ControlBlock → ControlBlock → Prop) : Prop where
  refl : ∀ c, R c c
  trans : ∀ {c d e}, R c d → R d e → R c e
  read : ∀ c index, ∀ live, (live.isSome → 7 ≤ index % 16) → R c (c.read c.id index live).2
  write : ∀ c index w, R c (c.write c.id index w).1

/-- A processor that reads comes to its own control block by way of a control word alone. -/
theorem Processor.Reads.control {R : ControlBlock → ControlBlock → Prop} {p q : Processor}
    (h : p.Reads q) (hR : ControlBlock.IsKept R) : R p.control q.control := by
  cases h with
  | elsewhere => exact hR.refl _
  | own index =>
    refine hR.read p.control index _ fun hlive => Nat.le_of_not_lt fun hlt => ?_
    rw [live?_eq_none hlt] at hlive
    cases hlive

namespace Machine

variable {R : ControlBlock → ControlBlock → Prop}

theorem control_write (hR : ControlBlock.IsKept R) (m : Machine) (addr w : Word) :
    R m.cpu.control (m.write addr w).cpu.control := by
  rw [write]
  split
  · exact hR.refl _
  · rw [Processor.writeControl_id]
    exact hR.write ..
  · split <;> exact hR.refl _

theorem control_result (hR : ControlBlock.IsKept R) (m : Machine) (i : Inst) :
    R m.cpu.control (m.result i).2.2.cpu.control := by
  have hsource := (m.reads_sourceValue i).control hR
  rw [result]
  cases i.opcode with
  | copy => exact hsource
  | compute op => exact hR.trans hsource ((reads_destinationValue _ i).control hR)

theorem control_store (hR : ControlBlock.IsKept R) (m : Machine) (i : Inst) (w : Word) :
    R m.cpu.control (m.store i w).cpu.control := by
  rw [store]
  split
  · dsimp only
    split <;> exact hR.refl _
  · next r _ =>
    dsimp only
    split
    · exact control_write hR (m.withRegs (m.cpu.regs.set r (m.cpu.regs.get r - 1))) _ w
    · exact m.control_write hR _ w
  · exact hR.refl _
  · exact hR.refl _

theorem control_movePointer (m : Machine) (i : Inst) :
    (m.movePointer i).cpu.control = m.cpu.control := by
  obtain ⟨regs, hregs⟩ := m.exists_movePointer_eq i
  rw [hregs]
  rfl

theorem control_exec (hR : ControlBlock.IsKept R) (m : Machine) (i : Inst) :
    R m.cpu.control (m.exec i).cpu.control := by
  have hresult := m.control_result hR i
  have hstored := control_store hR (m.result i).2.2 i (m.result i).1
  rw [← control_movePointer (store _ i _) i] at hstored
  rw [exec_eq, finish]
  split
  · dsimp only
    split <;> exact hR.trans hresult hstored
  · exact hresult

/-- **What becomes of a processor's control block in a step of its own.** -/
theorem control_step (hR : ControlBlock.IsKept R) (m : Machine) :
    R m.cpu.control m.step.cpu.control := by
  rcases m.step_cases with ⟨-, hstep⟩ | ⟨-, -, hstep⟩ | ⟨w, -, -, -, hstep⟩ | ⟨w, -, -, -, hstep⟩
  all_goals rw [hstep]
  · exact hR.refl _
  · exact hR.refl _
  · exact hR.refl _
  · exact m.count.control_exec hR _

end Machine

/-! ### Devices in their slots -/

/-- A relation that requests to a device keep, and a processor's own steps. -/
structure Device.IsKept (R : Device → Device → Prop) : Prop where
  refl : ∀ d, R d d
  trans : ∀ {d e f}, R d e → R e f → R d f
  serve : ∀ requester request d, R d (d.serve requester request)
  step : ∀ m : Machine, R (.processor m.cpu) (.processor m.step.cpu)

namespace Bank

variable {R : Device → Device → Prop}

theorem rel_self (h : ∀ d, R d d) (x : Option Device) : Option.Rel R x x := by
  cases x with
  | none => exact .none
  | some d => exact .some (h d)

theorem rel_comp (htrans : ∀ d e f, R d e → R e f → R d f) {x y z : Option Device}
    (h : Option.Rel R x y) (h' : Option.Rel R y z) : Option.Rel R x z := by
  cases h with
  | none => exact h'
  | some h =>
    cases h' with
    | some h' => exact .some (htrans _ _ _ h h')

theorem rel_refl (hR : Device.IsKept R) (x : Option Device) : Option.Rel R x x :=
  rel_self hR.refl x

theorem rel_trans (hR : Device.IsKept R) {x y z : Option Device} (h : Option.Rel R x y)
    (h' : Option.Rel R y z) : Option.Rel R x z :=
  rel_comp (R := R) (fun _ _ _ => hR.trans) h h'

theorem rel_map {f : Device → Device} (h : ∀ d, R d (f d)) (x : Option Device) :
    Option.Rel R x (x.map f) := by
  cases x with
  | none => exact .none
  | some d => exact .some (h d)

theorem rel_update (hR : Device.IsKept R) (b : Bank) (slot k : Nat) {f : Device → Device}
    (h : slot = k → ∀ d, R d (f d)) : Option.Rel R (b.get? k) ((b.update slot f).get? k) := by
  rw [get?_update]
  split
  · next hslot => exact rel_map (h hslot) _
  · exact rel_refl hR _

/-- What becomes of the device in a slot by a request is what the request does to a device, wherever
it is sent on to. -/
theorem rel_serve_of (hrefl : ∀ d, R d d) (b : Bank) (k : Nat) {requester : Word}
    {request : Request}
    (h : ∀ slot place d, R d (d.serve requester (request.redirect slot place))) :
    Option.Rel R (b.get? k) ((b.serve requester request).get? k) := by
  rw [get?_serve, find]
  cases b.reach requester request.slot request.place with
  | none => exact rel_self hrefl _
  | some found =>
    rw [Option.map_some]
    dsimp only
    split
    · exact rel_map (h found.1 found.2) _
    · exact rel_self hrefl _

theorem rel_foldl_serve_of (hrefl : ∀ d, R d d) (htrans : ∀ d e f, R d e → R e f → R d f)
    (b : Bank) (k : Nat) {requester : Word} {requests : List Request}
    (h : ∀ request ∈ requests, ∀ slot place d,
      R d (d.serve requester (request.redirect slot place))) :
    Option.Rel R (b.get? k) ((requests.foldl (serve requester) b).get? k) := by
  induction requests generalizing b with
  | nil => exact rel_self hrefl _
  | cons request rest ih =>
    exact rel_comp htrans (b.rel_serve_of hrefl k (h request List.mem_cons_self))
      (ih _ fun other hother => h other (List.mem_cons_of_mem request hother))

theorem rel_serve (hR : Device.IsKept R) (b : Bank) (k : Nat) (requester : Word)
    (request : Request) : Option.Rel R (b.get? k) ((b.serve requester request).get? k) :=
  b.rel_serve_of hR.refl k fun _ _ => hR.serve requester _

theorem rel_foldl_serve (hR : Device.IsKept R) (b : Bank) (k : Nat) (requester : Word)
    (requests : List Request) :
    Option.Rel R (b.get? k) ((requests.foldl (serve requester) b).get? k) :=
  b.rel_foldl_serve_of (R := R) hR.refl (fun _ _ _ => hR.trans) k
    fun _ _ _ _ => hR.serve requester _

/-- **What becomes of the device in a slot in a step.** A step changes its own processor and, by
what it asks of them, the other devices. -/
theorem rel_step (hR : Device.IsKept R) (b : Bank) (k slot : Nat) :
    Option.Rel R (b.get? k) ((b.step slot).get? k) := by
  by_cases hcpu : ∃ p, b.get? slot = some (.processor p)
  · obtain ⟨p, hp⟩ := hcpu
    rw [get?_step hp]
    by_cases hk : slot = k
    · subst hk
      rw [if_pos rfl, hp]
      exact .some (hR.step (b.machine slot p))
    · rw [if_neg hk]
      have hothers := (b.vacate slot).rel_foldl_serve hR k p.id (b.requests slot)
      rwa [get?_vacate, if_neg hk] at hothers
  · rw [step_of_not_processor fun p hp => hcpu ⟨p, hp⟩]
    exact rel_refl hR _

theorem rel_run (hR : Device.IsKept R) (b : Bank) (k slot n : Nat) :
    Option.Rel R (b.get? k) ((b.run slot n).get? k) := by
  induction n generalizing b with
  | zero =>
    rw [run_zero]
    exact rel_refl hR _
  | succ n ih =>
    rw [run_succ]
    exact rel_trans hR (b.rel_step hR k slot) (ih _)

/-- The slot that an event loads into. -/
def Event.loaded? : Event → Option Nat
  | .load slot _ => some slot
  | .loadBytes slot _ => some slot
  | _ => none

theorem rel_load (hR : Device.IsKept R) (b : Bank) (k slot : Nat) {load : Processor → Memory}
    (h : slot = k → ∀ (p : Processor) memory,
      R (.processor p) (.processor { p with memory := memory })) :
    Option.Rel R (b.get? k)
      ((b.updateProcessor slot fun p => { p with memory := load p }).get? k) := by
  refine b.rel_update hR slot k fun hslot d => ?_
  rcases d with p | d
  · exact h hslot p (load p)
  · exact hR.refl _

/-- What becomes of the device in a slot when a device is put on a bank: it may be the one that gets
a number, and the one that gets a peer. -/
theorem rel_attach (hR : Device.IsKept R) (b : Bank) (k cpu device : Nat)
    (hnumber : ∀ (d : Device) number, R d (d.withControl (d.control.setBankIndex number)))
    (hpeers : ∀ (p : Processor) peers, R (.processor p) (.processor { p with peers := peers })) :
    Option.Rel R (b.get? k) ((b.attach cpu device).get? k) := by
  rw [attach]
  split
  · refine rel_trans hR (b.rel_update hR device k fun _ d => hnumber d _)
      (rel_update hR _ cpu k fun _ d => ?_)
    cases d with
    | processor p => exact hpeers p _
    | block d => exact hR.refl _
  · exact rel_refl hR _

/-- **What becomes of the device in a slot whatever happens.** Besides requests and steps there are
two things that happen on a bank: a program is loaded, which is seen in the slot that it is loaded
into, and a device is put on a bank. -/
theorem rel_act (hR : Device.IsKept R) (b : Bank) (k : Nat) {event : Event}
    (hload : event.loaded? = some k → ∀ (p : Processor) memory,
      R (.processor p) (.processor { p with memory := memory }))
    (hattach : ∀ cpu device, event = .attach cpu device →
      Option.Rel R (b.get? k) ((b.attach cpu device).get? k)) :
    Option.Rel R (b.get? k) ((b.act event).get? k) := by
  cases event with
  | load slot ws => exact b.rel_load hR k slot fun hslot => hload (congrArg some hslot)
  | loadBytes slot bs => exact b.rel_load hR k slot fun hslot => hload (congrArg some hslot)
  | attach cpu device => exact hattach cpu device rfl
  | step slot => exact b.rel_step hR k slot
  | run slot limit => exact b.rel_run hR k slot limit
  | ask requester request => exact b.rel_serve hR k requester request

theorem rel_acts (hR : Device.IsKept R) (b : Bank) {k : Nat} {events : List Event}
    (h : ∀ event ∈ events, ∀ b : Bank, Option.Rel R (b.get? k) ((b.act event).get? k)) :
    Option.Rel R (b.get? k) ((b.acts events).get? k) := by
  induction events generalizing b with
  | nil => exact rel_refl hR _
  | cons event rest ih =>
    exact rel_trans hR (h event List.mem_cons_self b)
      (ih _ fun other hother => h other (List.mem_cons_of_mem event hother))

/-- The device in a slot before and behind something. -/
theorem exists_right_of_rel {x y : Option Device} {d : Device} (h : Option.Rel R x y)
    (hx : x = some d) : ∃ e, y = some e ∧ R d e := by
  subst hx
  cases h with
  | some h => exact ⟨_, rfl, h⟩

end Bank

end WordMachine
