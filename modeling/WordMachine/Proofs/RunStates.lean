import WordMachine.Proofs.Exclusion

/-!
# Run states

A processor is at work, has halted, or was aborted, and the three are told apart from within and
from without: by its own steps, by the jump to itself that halts it, by a fetch that finds no
memory, and by the one control word through which others start it again.

What holds of the state is an invariant of everything that can happen on a bank
(`Processor.IsConsistent`): a fault stands beside the state of an aborted processor and beside no
other, and it names the program counter, which still points where there is no memory.

`Processor.Follows` is what all that comes from outside has in common. It leaves a processor's state
as it was, with the fault and the program counter, or it starts the processor again. So one
relation, which is passed on from request to request (`Processor.Follows.trans`), tells for a whole
step of another processor whether this one is started.

## Main results

* `Bank.IsConsistent.act`: whatever happens on a bank keeps its processors consistent
* `Bank.step_of_stopped`, `Bank.run_of_stopped`: a processor that stopped does nothing
* `Bank.consistent_run_states`: what can be said of the state of a processor at any time
-/

namespace WordMachine

namespace Processor

/-- A processor whose state, fault and program counter agree. -/
structure IsConsistent (p : Processor) : Prop where
  masks_eq : p.control.masks = masks
  state_ne : p.state ≠ .timeout
  fault_iff : p.fault.isSome ↔ p.state = .aborted
  fault_eq : ∀ fault, p.fault = some fault →
    fault = .fetch p.regs.pc ∧ p.memory.pages ≤ Word.page p.regs.pc

theorem isConsistent_new (id : Word) (pages rom : Nat) : (new id pages rom).IsConsistent :=
  ⟨rfl, nofun, ⟨nofun, nofun⟩, nofun⟩

/-- Whether a request, if it comes to a processor, starts it again: it is a write of its controller,
which the first comer becomes by it, to the control word of the program counter. -/
def IsStartedBy (p : Processor) (requester : Word) (request : Request) : Prop :=
  p.control.Heeds requester ∧
    ∃ slot index w, request = .write slot (.control index) w ∧ index % 16 = 7

/-- What becomes of a processor that does nothing itself, with whether it is started again. -/
structure Follows (p q : Processor) (started : Prop) : Prop where
  masks_eq : q.control.masks = p.control.masks
  pages_eq : q.memory.pages = p.memory.pages
  instructions_eq : q.instructions = p.instructions
  running : p.control.masks = masks → started → q.state = .running ∧ q.fault = none
  unchanged : ¬ started → q.state = p.state ∧ q.fault = p.fault ∧ q.regs.pc = p.regs.pc

namespace Follows

variable {p q r : Processor} {started again : Prop}

theorem refl (p : Processor) (h : ¬ started) : p.Follows p started :=
  ⟨rfl, rfl, rfl, fun _ hstarted => absurd hstarted h, fun _ => ⟨rfl, rfl, rfl⟩⟩

theorem trans (h : p.Follows q started) (h' : q.Follows r again) :
    p.Follows r (started ∨ again) where
  masks_eq := h'.masks_eq.trans h.masks_eq
  pages_eq := h'.pages_eq.trans h.pages_eq
  instructions_eq := h'.instructions_eq.trans h.instructions_eq
  running hmasks hstarted := by
    by_cases hagain : again
    · exact h'.running (h.masks_eq.trans hmasks) hagain
    · obtain ⟨hstate, hfault, -⟩ := h'.unchanged hagain
      obtain ⟨hrunning, hnone⟩ := h.running hmasks (hstarted.resolve_right hagain)
      exact ⟨hstate.trans hrunning, hfault.trans hnone⟩
  unchanged hnot := by
    obtain ⟨hstate, hfault, hpc⟩ := h.unchanged fun hstarted => hnot (Or.inl hstarted)
    obtain ⟨hstate', hfault', hpc'⟩ := h'.unchanged fun hagain => hnot (Or.inr hagain)
    exact ⟨hstate'.trans hstate, hfault'.trans hfault, hpc'.trans hpc⟩

theorem congr (h : p.Follows q started) (hiff : started ↔ again) : p.Follows q again :=
  propext hiff ▸ h

theorem isConsistent (h : p.Follows q started) (hp : p.IsConsistent) : q.IsConsistent := by
  by_cases hstarted : started
  · obtain ⟨hstate, hfault⟩ := h.running hp.masks_eq hstarted
    refine ⟨h.masks_eq.trans hp.masks_eq, ?_, ?_, ?_⟩
    · simp [hstate]
    · simp [hstate, hfault]
    · simp [hfault]
  · obtain ⟨hstate, hfault, hpc⟩ := h.unchanged hstarted
    refine ⟨h.masks_eq.trans hp.masks_eq, ?_, ?_, ?_⟩
    · rw [hstate]
      exact hp.state_ne
    · rw [hstate, hfault]
      exact hp.fault_iff
    · rw [hfault, hpc, h.pages_eq]
      exact hp.fault_eq

end Follows

/-! ### Requests -/

/-- The device acts on the writes that it heeds, and on no others. -/
theorem heeds_of_told {c : ControlBlock} {requester w : Word} {index : Nat}
    (h : (c.write requester index w).2 = true) : c.Heeds requester := by
  by_cases hindex : index % 16 = 0
  · rw [ControlBlock.write_zero hindex] at h
    cases h
  by_cases hid : requester = c.id
  · subst hid
    rw [ControlBlock.write_own] at h
    cases h
  by_cases hheeds : c.Heeds requester
  · exact hheeds
  · rw [ControlBlock.write_of_not_heeds hid hheeds] at h
    cases h

/-- A controller may always set the program counter. -/
theorem told_of_heeds {c : ControlBlock} {requester : Word} {index : Nat}
    (hmasks : c.masks = masks) (h : c.Heeds requester) (hindex : index % 16 = 7) (w : Word) :
    (c.write requester index w).2 = true := by
  rw [ControlBlock.write_of_heeds h (by omega), if_pos]
  right
  rw [hmasks, hindex]
  rfl

/-- Beside the word for the program counter, nothing that a controller writes tells on the state. -/
theorem follows_obey (p : Processor) (index : Nat) (w : Word) :
    p.Follows (p.obey index w) (index = 7) := by
  unfold obey
  split
  · exact ⟨rfl, rfl, rfl, fun _ _ => ⟨rfl, rfl⟩, fun hne => absurd rfl hne⟩
  all_goals exact ⟨rfl, rfl, rfl, fun _ h => absurd h (by omega), fun _ => ⟨rfl, rfl, rfl⟩⟩

theorem follows_withControl (p : Processor) {control : ControlBlock}
    (h : control.masks = p.control.masks) {started : Prop} (hnot : ¬ started) :
    p.Follows { p with control := control } started :=
  ⟨h, rfl, rfl, fun _ hstarted => absurd hstarted hnot, fun _ => ⟨rfl, rfl, rfl⟩⟩

theorem isStartedBy_write {p : Processor} {requester : Word} {slot index : Nat} {w : Word} :
    p.IsStartedBy requester (.write slot (.control index) w) ↔
      p.control.Heeds requester ∧ index % 16 = 7 := by
  constructor
  · rintro ⟨hheeds, _, _, _, heq, hindex⟩
    cases heq
    exact ⟨hheeds, hindex⟩
  · rintro ⟨hheeds, hindex⟩
    exact ⟨hheeds, slot, index, w, rfl, hindex⟩

theorem follows_writeControl (p : Processor) (requester : Word) (slot index : Nat) (w : Word) :
    p.Follows (p.writeControl requester index w)
      (p.IsStartedBy requester (.write slot (.control index) w)) := by
  have hmasks := ControlBlock.masks_write p.control requester index w
  rw [writeControl]
  dsimp only
  split
  · next htold =>
    refine ((p.follows_withControl hmasks not_false).trans (follows_obey _ (index % 16) w)).congr ?_
    rw [isStartedBy_write]
    simp [heeds_of_told htold]
  · next htold =>
    refine ⟨hmasks, rfl, rfl, fun hmasks hstarted => ?_, fun _ => ⟨rfl, rfl, rfl⟩⟩
    obtain ⟨hheeds, hindex⟩ := isStartedBy_write.mp hstarted
    exact absurd (told_of_heeds hmasks hheeds hindex w) htold

theorem not_isStartedBy {p : Processor} {requester : Word} {request : Request}
    (h : ∀ slot index w, request ≠ .write slot (.control index) w) :
    ¬ p.IsStartedBy requester request :=
  fun ⟨_, slot, index, w, heq, _⟩ => h slot index w heq

/-- **What a request does to a processor.** -/
theorem follows_serve (p : Processor) (requester : Word) (request : Request) :
    ∃ q, (Device.processor p).serve requester request = .processor q ∧
      p.Follows q (p.IsStartedBy requester request) := by
  rcases request with ⟨slot, addr | index⟩ | ⟨slot, addr | index, w⟩
  · exact ⟨p, rfl, .refl p (not_isStartedBy nofun)⟩
  · refine ⟨(p.readControl requester index).2, rfl, ?_⟩
    rw [control_readControl]
    exact p.follows_withControl (p.continues_readControl requester index).masks_eq
      (not_isStartedBy nofun)
  · change ∃ q, (Device.processor p).writeMemory requester addr w = .processor q ∧ _
    have hnot : ¬ p.IsStartedBy requester (.write slot (.memory addr) w) := not_isStartedBy nofun
    rw [Device.writeMemory]
    split
    · refine ⟨_, rfl, rfl, ?_, rfl, fun _ hstarted => absurd hstarted hnot, fun _ =>
        ⟨rfl, rfl, rfl⟩⟩
      exact Memory.pages_write ..
    · exact ⟨p, rfl, .refl p hnot⟩
  · exact ⟨_, rfl, p.follows_writeControl requester slot index w⟩

end Processor

/-- A device that was just made. -/
inductive Device.IsNew : Device → Prop where
  | processor (id : Word) (pages rom : Nat) : IsNew (.processor (.new id pages rom))
  | block (id : Word) (pages : Nat) : IsNew (.block (.new id pages))

/-- A block stays a block. -/
theorem Device.serve_block (requester : Word) (request : Request) (d : BlockMemory) :
    ∃ e, (block d).serve requester request = .block e := by
  rcases request with ⟨_, _ | _⟩ | ⟨_, addr | _, w⟩
  · exact ⟨d, rfl⟩
  · exact ⟨_, rfl⟩
  · change ∃ e, (block d).writeMemory requester addr w = .block e
    rw [writeMemory]
    split
    · exact ⟨_, rfl⟩
    · exact ⟨d, rfl⟩
  · exact ⟨_, rfl⟩

namespace Bank

/-! ### Slots -/

/-- What becomes of a slot, with what becomes of a processor that is in it. -/
inductive Carries (R : Processor → Processor → Prop) : Option Device → Option Device → Prop where
  | none : Carries R none none
  | block (d e : BlockMemory) : Carries R (some (.block d)) (some (.block e))
  | processor {p q : Processor} (h : R p q) :
      Carries R (some (.processor p)) (some (.processor q))

namespace Carries

variable {R S : Processor → Processor → Prop} {x y z : Option Device}

theorem of_refl (h : ∀ p, R p p) (x : Option Device) : Carries R x x := by
  rcases x with _ | (p | d)
  · exact .none
  · exact .processor (h p)
  · exact .block d d

theorem mono (h : Carries R x y) (hmono : ∀ p q, R p q → S p q) : Carries S x y := by
  cases h with
  | none => exact .none
  | block d e => exact .block d e
  | processor h => exact .processor (hmono _ _ h)

theorem trans {T : Processor → Processor → Prop} (h : Carries R x y) (h' : Carries S y z)
    (htrans : ∀ p q r, R p q → S q r → T p r) :
    Carries T x z := by
  cases h with
  | none =>
    cases h'
    exact .none
  | block d e =>
    cases h'
    exact .block ..
  | processor h =>
    cases h' with
    | processor h' => exact .processor (htrans _ _ _ h h')

theorem exists_right {p : Processor} (h : Carries R x y) (hx : x = some (.processor p)) :
    ∃ q, y = some (.processor q) ∧ R p q := by
  subst hx
  cases h with
  | processor h => exact ⟨_, rfl, h⟩

theorem exists_left {q : Processor} (h : Carries R x y) (hy : y = some (.processor q)) :
    ∃ p, x = some (.processor p) ∧ R p q := by
  subst hy
  cases h with
  | processor h => exact ⟨_, rfl, h⟩

end Carries

/-! ### Requests on a bank -/

/-- Whether a request starts the processor in a slot: it is this processor that answers it. -/
def Starts (b : Bank) (k : Nat) (requester : Word) (request : Request) : Prop :=
  ∃ p found, b.get? k = some (.processor p) ∧ b.find requester request = some found ∧
    found.slot = k ∧ p.IsStartedBy requester found

/-- Whether one of several requests starts the processor in a slot, when it is its turn. -/
def StartsAmong (k : Nat) (requester : Word) : Bank → List Request → Prop
  | _, [] => False
  | b, request :: rest =>
    b.Starts k requester request ∨ StartsAmong k requester (b.serve requester request) rest

/-- Whether a step of the device in a slot starts the processor in another. -/
def StartsInStep (b : Bank) (k slot : Nat) : Prop :=
  ∃ p, b.get? slot = some (.processor p) ∧
    StartsAmong k p.id (b.vacate slot) (b.requests slot)

/-- Whether one of so many steps of the device in a slot starts the processor in another. -/
def StartsInRun (k slot : Nat) : Bank → Nat → Prop
  | _, 0 => False
  | b, n + 1 => b.StartsInStep k slot ∨ StartsInRun k slot (b.step slot) n

variable {b : Bank} {k slot : Nat}

theorem carries_serve (b : Bank) (k : Nat) (requester : Word) (request : Request) :
    Carries (fun p q => p.Follows q (b.Starts k requester request)) (b.get? k)
      ((b.serve requester request).get? k) := by
  rw [get?_serve]
  cases hfind : b.find requester request with
  | none =>
    refine .of_refl (fun p => .refl p ?_) _
    rintro ⟨_, _, -, hfound, -⟩
    cases hfind.symm.trans hfound
  | some found =>
    dsimp only
    by_cases hslot : found.slot = k
    · rw [if_pos hslot]
      rcases hk : b.get? k with _ | (p | d)
      · exact .none
      · obtain ⟨q, hq, hfollows⟩ := p.follows_serve requester found
        rw [Option.map_some, hq]
        refine .processor (hfollows.congr ⟨fun h => ⟨p, found, hk, hfind, hslot, h⟩, ?_⟩)
        rintro ⟨p', found', hp', hfound', -, h⟩
        cases hk.symm.trans hp'
        cases hfind.symm.trans hfound'
        exact h
      · obtain ⟨e, he⟩ := Device.serve_block requester found d
        rw [Option.map_some, he]
        exact .block d e
    · rw [if_neg hslot]
      refine .of_refl (fun p => .refl p ?_) _
      rintro ⟨_, found', -, hfound', hslot', -⟩
      cases hfind.symm.trans hfound'
      exact hslot hslot'

theorem carries_foldl_serve (b : Bank) (k : Nat) (requester : Word) (requests : List Request) :
    Carries (fun p q => p.Follows q (StartsAmong k requester b requests)) (b.get? k)
      ((requests.foldl (serve requester) b).get? k) := by
  induction requests generalizing b with
  | nil => exact .of_refl (fun p => .refl p not_false) _
  | cons request rest ih =>
    exact (b.carries_serve k requester request).trans (ih _) fun _ _ _ h h' => h.trans h'

/-- Requests do not fill a slot, so they start nothing that is not there. -/
theorem not_startsAmong (requester : Word) (requests : List Request) (h : b.get? k = none) :
    ¬ StartsAmong k requester b requests := by
  induction requests generalizing b with
  | nil => exact not_false
  | cons request rest ih =>
    rintro (⟨p, _, hp, -⟩ | hrest)
    · cases h.symm.trans hp
    · exact ih (get?_serve_eq_none h request) hrest

/-! ### Steps on a bank -/

/-- What a step of another does to a processor is what its requests do. -/
theorem carries_step (b : Bank) (hk : slot ≠ k) :
    Carries (fun p q => p.Follows q (b.StartsInStep k slot)) (b.get? k)
      ((b.step slot).get? k) := by
  by_cases hcpu : ∃ p, b.get? slot = some (.processor p)
  · obtain ⟨p, hp⟩ := hcpu
    have hcarries := (b.vacate slot).carries_foldl_serve k p.id (b.requests slot)
    rw [get?_vacate, if_neg hk] at hcarries
    rw [get?_step hp, if_neg hk]
    refine hcarries.mono fun q r h => h.congr ⟨fun h => ⟨p, hp, h⟩, ?_⟩
    rintro ⟨p', hp', h⟩
    cases hp.symm.trans hp'
    exact h
  · rw [step_of_not_processor fun p hp => hcpu ⟨p, hp⟩]
    refine .of_refl (fun p => .refl p ?_) _
    rintro ⟨p, hp, -⟩
    exact hcpu ⟨p, hp⟩

/-- No processor starts itself. -/
theorem not_startsInStep_self (b : Bank) (k : Nat) : ¬ b.StartsInStep k k := by
  rintro ⟨p, -, h⟩
  exact not_startsAmong p.id _ (by rw [get?_vacate, if_pos rfl]) h

theorem not_startsInRun_self (b : Bank) (k n : Nat) : ¬ StartsInRun k k b n := by
  induction n generalizing b with
  | zero => exact not_false
  | succ n ih => exact not_or.mpr ⟨b.not_startsInStep_self k, ih _⟩

end Bank

/-! ### A processor's own steps -/

/-- Where nothing can be fetched, there is no page. -/
theorem Memory.le_page_of_readAt {m : Memory} {addr : Word} (h : m.readAt addr = none) :
    m.pages ≤ Word.page addr := by
  refine Nat.le_of_not_lt fun hlt => ?_
  obtain ⟨w, hw⟩ := exists_read_iff.mpr ⟨hlt, Word.offset_lt addr⟩
  rw [readAt, hw] at h
  cases h

namespace Machine

variable {m : Machine}

theorem isConsistent_step (h : m.cpu.IsConsistent) : m.step.cpu.IsConsistent := by
  cases hrunning : m.isRunning with
  | false =>
    rw [step_of_not_running hrunning]
    exact h
  | true =>
    have hstate := (isRunning_iff.mp hrunning).1
    rcases m.continues_step with hstep | ⟨-, hfetch, hstep⟩
    · have hfault : m.step.cpu.fault = none := by
        rw [hstep.fault_eq, ← Option.not_isSome_iff_eq_none, h.fault_iff, hstate]
        nofun
      have hstopped := hstep.state_eq
      rw [hstate] at hstopped
      refine ⟨hstep.masks_eq.trans h.masks_eq, ?_, ?_, ?_⟩
      · rcases hstopped with heq | heq <;> simp [heq]
      · rcases hstopped with heq | heq <;> simp [heq, hfault]
      · simp [hfault]
    · rw [hstep]
      refine ⟨h.masks_eq, nofun, ⟨fun _ => rfl, fun _ => rfl⟩, fun fault hfault => ?_⟩
      cases hfault
      exact ⟨rfl, Memory.le_page_of_readAt hfetch⟩

/-- An aborted step is not counted. -/
theorem instructions_step_of_aborted (h : m.step.cpu.state = .aborted) :
    m.step.cpu.instructions = m.cpu.instructions := by
  rcases m.continues_step with hstep | ⟨-, -, hstep⟩
  · have hstate : m.cpu.state = .aborted := by
      rcases hstep.state_eq with heq | heq
      · exact heq.symm.trans h
      · cases heq.symm.trans h
    rw [step_of_not_running (Bool.eq_false_iff.mpr fun hrunning => ?_)]
    cases hstate.symm.trans (isRunning_iff.mp hrunning).1
  · rw [hstep]
    rfl

end Machine

namespace Bank

variable {b : Bank} {k slot : Nat} {p : Processor}

/-- A bank on which the state, fault and program counter of every processor agree. -/
def IsConsistent (b : Bank) : Prop :=
  ∀ k p, b.get? k = some (.processor p) → p.IsConsistent

theorem IsConsistent.of_carries (h : b.IsConsistent) {b' : Bank}
    (hcarries : ∀ k, Carries (fun p q => p.IsConsistent → q.IsConsistent) (b.get? k) (b'.get? k)) :
    b'.IsConsistent := by
  intro k q hq
  obtain ⟨p, hp, hkeeps⟩ := (hcarries k).exists_left hq
  exact hkeeps (h k p hp)

theorem IsConsistent.step (h : b.IsConsistent) (slot : Nat) : (b.step slot).IsConsistent := by
  refine h.of_carries fun k => ?_
  by_cases hk : slot = k
  · subst hk
    by_cases hcpu : ∃ p, b.get? slot = some (.processor p)
    · obtain ⟨p, hp⟩ := hcpu
      rw [get?_step hp, if_pos rfl, hp]
      exact .processor (Machine.isConsistent_step (m := b.machine slot p))
    · rw [step_of_not_processor fun p hp => hcpu ⟨p, hp⟩]
      exact .of_refl (fun _ hp => hp) _
  · exact (b.carries_step hk).mono fun _ _ hfollows => hfollows.isConsistent

theorem IsConsistent.run (h : b.IsConsistent) (slot n : Nat) : (b.run slot n).IsConsistent := by
  induction n generalizing b with
  | zero =>
    rw [run_zero]
    exact h
  | succ n ih =>
    rw [run_succ]
    exact ih (h.step slot)

/-! ### Processors that have stopped -/

/-- **A processor that stopped takes no step.** -/
theorem step_of_stopped (hp : b.get? slot = some (.processor p)) (h : p.state ≠ .running) :
    b.step slot = b := by
  have hstopped : (b.machine slot p).isRunning = false :=
    Bool.eq_false_iff.mpr fun hrunning => h (Machine.isRunning_iff.mp hrunning).1
  rw [step, hp]
  change (b.machine slot p).step.bank.put slot (.processor (b.machine slot p).step.cpu) = b
  rw [Machine.step_of_not_running hstopped]
  exact put_vacate hp

theorem run_of_stopped (hp : b.get? slot = some (.processor p)) (h : p.state ≠ .running) (n : Nat) :
    b.run slot n = b := by
  induction n with
  | zero => exact run_zero b slot
  | succ n ih => rw [run_succ, step_of_stopped hp h, ih]

/-- What a run of another does to a processor is what its steps do. -/
theorem carries_run (b : Bank) (hk : slot ≠ k) (n : Nat) :
    Carries (fun p q => p.Follows q (StartsInRun k slot b n)) (b.get? k)
      ((b.run slot n).get? k) := by
  induction n generalizing b with
  | zero =>
    rw [run_zero]
    exact .of_refl (fun p => .refl p not_false) _
  | succ n ih =>
    rw [run_succ]
    exact (b.carries_step hk).trans (ih _) fun _ _ _ h h' => h.trans h'

/-! ### Whatever happens -/

/-- What may be done with the devices on a bank. -/
inductive Event where
  | load (slot : Nat) (ws : List Word)
  | loadBytes (slot : Nat) (bs : List UInt8)
  | attach (cpu device : Nat)
  | step (slot : Nat)
  | run (slot limit : Nat)
  | ask (requester : Word) (request : Request)

/-- The bank behind a change to the processor in a slot. -/
def updateProcessor (b : Bank) (slot : Nat) (f : Processor → Processor) : Bank :=
  b.update slot fun
    | .processor p => .processor (f p)
    | d => d

/-- The bank behind an event. -/
def act (b : Bank) : Event → Bank
  | .load slot ws => b.updateProcessor slot fun p => (p.loadWords ws).2
  | .loadBytes slot bs => b.updateProcessor slot fun p => (p.loadImage bs).2
  | .attach cpu device => b.attach cpu device
  | .step slot => b.step slot
  | .run slot limit => b.run slot limit
  | .ask requester request => b.serve requester request

/-- Whether an event starts the processor in a slot: somebody whom it heeds writes to the control
word of its program counter. -/
def IsStarting (b : Bank) (k : Nat) : Event → Prop
  | .step slot => b.StartsInStep k slot
  | .run slot limit => StartsInRun k slot b limit
  | .ask requester request => b.Starts k requester request
  | _ => False

/-- The bank behind one event after another. -/
def acts (b : Bank) (events : List Event) : Bank := events.foldl act b

theorem carries_update (b : Bank) (slot k : Nat) {f : Device → Device}
    (hprocessor : ∀ p : Processor, ∃ q, f (.processor p) = .processor q ∧ p.Follows q False)
    (hblock : ∀ d, ∃ e, f (.block d) = .block e) :
    Carries (fun p q => p.Follows q False) (b.get? k) ((b.update slot f).get? k) := by
  rw [get?_update]
  split
  · rcases b.get? k with _ | (p | d)
    · exact .none
    · obtain ⟨q, hq, hfollows⟩ := hprocessor p
      rw [Option.map_some, hq]
      exact .processor hfollows
    · obtain ⟨e, he⟩ := hblock d
      rw [Option.map_some, he]
      exact .block d e
  · exact .of_refl (fun p => .refl p not_false) _

theorem carries_updateProcessor (b : Bank) (slot k : Nat) {f : Processor → Processor}
    (h : ∀ p : Processor, p.Follows (f p) False) :
    Carries (fun p q => p.Follows q False) (b.get? k) ((b.updateProcessor slot f).get? k) :=
  b.carries_update slot k (fun p => ⟨f p, rfl, h p⟩) fun d => ⟨d, rfl⟩

theorem carries_attach (b : Bank) (cpu device k : Nat) :
    Carries (fun p q => p.Follows q False) (b.get? k) ((b.attach cpu device).get? k) := by
  rw [attach]
  split
  · next p _ =>
    dsimp only
    have hdevice := b.carries_update device k
      (f := fun d => d.withControl (d.control.setBankIndex (nextIndex p)))
      (fun q => ⟨_, rfl, q.follows_withControl (ControlBlock.masks_set ..) not_false⟩)
      fun d => ⟨_, rfl⟩
    refine hdevice.trans (carries_update _ cpu k (fun p => ⟨_, rfl, ?_⟩) fun d => ⟨d, rfl⟩)
      fun _ _ _ h h' => (h.trans h').congr (or_self_iff)
    exact ⟨rfl, rfl, rfl, fun _ => False.elim, fun _ => ⟨rfl, rfl, rfl⟩⟩
  · exact .of_refl (fun p => .refl p not_false) _

/-! ### Loading -/

/-- A processor goes on as it was with another program. -/
theorem follows_withMemory (p : Processor) {memory : Memory}
    (h : memory.pages = p.memory.pages) : p.Follows { p with memory := memory } False :=
  ⟨rfl, h, rfl, fun _ => False.elim, fun _ => ⟨rfl, rfl, rfl⟩⟩

theorem follows_loadWords (p : Processor) (ws : List Word) : p.Follows (p.loadWords ws).2 False :=
  follows_withMemory p (p.memory.pages_loadWords 0 ws)

theorem follows_loadImage (p : Processor) (bs : List UInt8) : p.Follows (p.loadImage bs).2 False :=
  follows_withMemory p (p.memory.pages_loadImage 0 bs)

/-- **Whatever happens on a bank keeps its processors consistent.** -/
theorem IsConsistent.act (h : b.IsConsistent) (event : Event) : (b.act event).IsConsistent := by
  have hquiet {b' : Bank} (started : Nat → Prop)
      (hcarries : ∀ k, Carries (fun p q => p.Follows q (started k)) (b.get? k) (b'.get? k)) :
      b'.IsConsistent :=
    h.of_carries fun k => (hcarries k).mono fun _ _ hfollows => hfollows.isConsistent
  cases event with
  | load slot ws =>
    exact hquiet _ fun k => b.carries_updateProcessor slot k (follows_loadWords · ws)
  | loadBytes slot bs =>
    exact hquiet _ fun k => b.carries_updateProcessor slot k (follows_loadImage · bs)
  | attach cpu device => exact hquiet _ (b.carries_attach cpu device)
  | step slot => exact h.step slot
  | run slot limit => exact h.run slot limit
  | ask requester request => exact hquiet _ fun k => b.carries_serve k requester request

theorem IsConsistent.acts (h : b.IsConsistent) (events : List Event) :
    (b.acts events).IsConsistent := by
  induction events generalizing b with
  | nil => exact h
  | cons event rest ih => exact ih (h.act event)

/-- **What becomes of a processor that stopped.** Nothing starts it but the one control word. -/
theorem follows_act_of_stopped (hp : b.get? k = some (.processor p)) (h : p.state ≠ .running)
    (event : Event) :
    ∃ q, (b.act event).get? k = some (.processor q) ∧ p.Follows q (b.IsStarting k event) := by
  cases event with
  | load slot ws =>
    exact (b.carries_updateProcessor slot k (follows_loadWords · ws)).exists_right hp
  | loadBytes slot bs =>
    exact (b.carries_updateProcessor slot k (follows_loadImage · bs)).exists_right hp
  | attach cpu device => exact (b.carries_attach cpu device k).exists_right hp
  | step slot =>
    by_cases hk : slot = k
    · subst hk
      refine ⟨p, ?_, .refl p (b.not_startsInStep_self slot)⟩
      rw [act, step_of_stopped hp h, hp]
    · exact (b.carries_step hk).exists_right hp
  | run slot limit =>
    by_cases hk : slot = k
    · subst hk
      refine ⟨p, ?_, .refl p (b.not_startsInRun_self slot limit)⟩
      rw [act, run_of_stopped hp h, hp]
    · exact (b.carries_run hk limit).exists_right hp
  | ask requester request => exact (b.carries_serve k requester request).exists_right hp

/-- A step counts for one instruction at most, for the processor that takes it, and for none if it
leaves it aborted. -/
theorem instructions_step (hp : b.get? k = some (.processor p)) (slot : Nat) :
    ∃ q, (b.step slot).get? k = some (.processor q) ∧ p.instructions ≤ q.instructions ∧
      q.instructions ≤ p.instructions + 1 ∧
      (q.state = .aborted → q.instructions = p.instructions) := by
  by_cases hk : slot = k
  · subst hk
    have hcount := (b.machine slot p).instructions_step
    refine ⟨_, (get?_step hp slot).trans (if_pos rfl), ?_, ?_,
      Machine.instructions_step_of_aborted (m := b.machine slot p)⟩
    all_goals
      rw [hcount]
      split <;> simp [machine]
  · obtain ⟨q, hq, hfollows⟩ := (b.carries_step hk).exists_right hp
    have heq := hfollows.instructions_eq
    exact ⟨q, hq, by omega, by omega, fun _ => heq⟩

/-- **Run states.** Take any devices, as they are made, and whatever may then happen to them. The
state of a processor among them is not the answer of a run that was out of steps; it has a fault
exactly if it was aborted, and the fault is then that its program counter points where it has no
page. Every step counts for one instruction at most, and a step by which it is aborted for none.
Once it has stopped, its own steps and runs change nothing, and nothing changes its state until it
is started, which clears the fault. -/
theorem consistent_run_states {ds : List Device} (hds : ∀ d ∈ ds, d.IsNew) (events : List Event)
    (hp : ((ofList ds).acts events).get? k = some (.processor p)) :
    let b := (ofList ds).acts events
    p.state ≠ .timeout ∧
    (p.fault.isSome ↔ p.state = .aborted) ∧
    (∀ fault, p.fault = some fault →
      fault = .fetch p.regs.pc ∧ p.memory.pages ≤ Word.page p.regs.pc) ∧
    (∀ slot, ∃ q, (b.step slot).get? k = some (.processor q) ∧ p.instructions ≤ q.instructions ∧
      q.instructions ≤ p.instructions + 1 ∧
      (q.state = .aborted → q.instructions = p.instructions)) ∧
    (p.state = .halted ∨ p.state = .aborted →
      b.step k = b ∧ (∀ n, b.run k n = b) ∧
      ∀ event, ∃ q, (b.act event).get? k = some (.processor q) ∧
        (b.IsStarting k event → q.state = .running ∧ q.fault = none) ∧
        (¬ b.IsStarting k event → q.state = p.state ∧ q.fault = p.fault)) := by
  intro b
  have hstart : (ofList ds).IsConsistent := by
    intro k p hp
    rw [get?_ofList] at hp
    cases hds _ (List.mem_of_getElem? hp)
    exact Processor.isConsistent_new ..
  have hconsistent := hstart.acts events k p hp
  refine ⟨hconsistent.state_ne, hconsistent.fault_iff, hconsistent.fault_eq, instructions_step hp,
    fun hstopped => ?_⟩
  have hne : p.state ≠ .running := by
    rcases hstopped with heq | heq <;> simp [heq]
  refine ⟨step_of_stopped hp hne, run_of_stopped hp hne, fun event => ?_⟩
  obtain ⟨q, hq, hfollows⟩ := follows_act_of_stopped hp hne event
  refine ⟨q, hq, hfollows.running hconsistent.masks_eq, fun hnot => ?_⟩
  obtain ⟨hstate, hfault, -⟩ := hfollows.unchanged hnot
  exact ⟨hstate, hfault⟩

/-- A processor without memory is aborted by its first step, and is started again by the first that
asks it to. -/
theorem consistent_run_states_aborted :
    let b := (ofList [.processor (.new 1 0 0)]).acts [.step 0]
    ∃ p, b.get? 0 = some (.processor p) ∧ p.state = .aborted ∧ p.fault.isSome ∧ b.step 0 = b ∧
      ∃ q, (b.act (.ask 2 (.write 0 (.control 7) 5))).get? 0 = some (.processor q) ∧
        q.state = .running ∧ q.fault = none := by
  intro b
  have hp : b.get? 0 = some (.processor
      { Processor.new 1 0 0 with state := .aborted, fault := some (.fetch 0) }) := by
    decide +kernel
  have hnew : ∀ d ∈ [Device.processor (.new 1 0 0)], d.IsNew := by
    rintro _ (_ | ⟨_, ⟨⟩⟩)
    exact .processor 1 0 0
  obtain ⟨-, hfault, -, -, hstopped⟩ := consistent_run_states hnew [.step 0] hp
  obtain ⟨hstep, -, hevent⟩ := hstopped (Or.inr rfl)
  obtain ⟨q, hq, hstarted, -⟩ := hevent (.ask 2 (.write 0 (.control 7) 5))
  obtain ⟨hrunning, hnone⟩ :=
    hstarted ⟨_, _, hp, rfl, rfl, by decide +kernel, 0, 7, 5, rfl, rfl⟩
  exact ⟨_, hp, rfl, hfault.mpr rfl, hstep, q, hq, hrunning, hnone⟩

end Bank

end WordMachine
