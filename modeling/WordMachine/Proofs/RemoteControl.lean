import WordMachine.Proofs.Masks
import WordMachine.Proofs.Slots

/-!
# Remote control

A controller reads and sets the registers of the processor that it holds, through control words that
stand for them. Such a word is a copy: a read of the controller's brings it up to date first, and a
write of the controller's is passed on to the register. In between the processor takes steps, by
which its registers change and the copies do not, it may read and write its own control words, and
others may ask it for whatever they like.

None of this is ever seen. What a controller reads and what its writes do is settled by the
registers at that moment, and by three things which the processor keeps whatever happens: that it is
a processor, its id, and its masks (`Device.isKept_persists`). So nothing has to be known about the
copies, nor about how the processor came to where it is.

## Main results

* `RemoteRegister.get_obey_self`, `RemoteRegister.get_obey_of_ne`: a write sets its register alone
* `Bank.isDriven`: what the controller of a processor reads and writes, and what nobody else does
* `Bank.isDriven_acts`: it is so at any time
-/

namespace WordMachine

/-- A flags word loses all but three bits in the flags. -/
theorem Flags.toWord_ofWord (w : Word) : (Flags.ofWord w).toWord = w &&& 7 := by
  have hkept {k : Nat} (hk : k < 16) :
      (if w &&& UInt16.ofNat (2 ^ k) != 0 then UInt16.ofNat (2 ^ k) else 0)
        = w &&& UInt16.ofNat (2 ^ k) := by
    have h := Word.and_bit_ne_zero_iff w hk
    rw [← bne_iff_ne] at h
    simp only [h, ← Word.and_bit w hk]
  have hoverflow : (if w &&& 1 != 0 then (1 : Word) else 0) = w &&& 1 := hkept (by decide : 0 < 16)
  have hzero : (if w &&& 2 != 0 then (2 : Word) else 0) = w &&& 2 := hkept (by decide : 1 < 16)
  have hnegative : (if w &&& 4 != 0 then (4 : Word) else 0) = w &&& 4 := hkept (by decide : 2 < 16)
  rw [ofWord, toWord, hoverflow, hzero, hnegative]
  refine UInt16.toNat_inj.mp ?_
  rw [UInt16.toNat_or, UInt16.toNat_or, UInt16.toNat_and, UInt16.toNat_and, UInt16.toNat_and,
    UInt16.toNat_and, ← Nat.and_or_distrib_left, ← Nat.and_or_distrib_left]
  rfl

/-! ### Registers behind control words -/

/-- A register that a control word stands for. -/
inductive RemoteRegister where
  | pc
  | general (r : Reg)
  | flags
  | control
  deriving DecidableEq, Repr

namespace RemoteRegister

/-- The control word that stands for a register. -/
def index : RemoteRegister → Nat
  | pc => 0x7
  | general r => 0x7 + r.number
  | flags => 0xB
  | control => 0xC

/-- The word in a register. -/
def get (rs : Registers) : RemoteRegister → Word
  | pc => rs.pc
  | general r => rs.get r
  | flags => rs.flags.toWord
  | control => rs.control

/-- What a register keeps of a word that is put into it. -/
def kept (w : Word) : RemoteRegister → Word
  | flags => w &&& 7
  | _ => w

theorem index_mem (x : RemoteRegister) : 7 ≤ x.index ∧ x.index < 16 := by
  rcases x with _ | (_ | _ | _) | _ | _ <;> decide

theorem live?_index (x : RemoteRegister) (p : Processor) :
    p.live? x.index = some (x.get p.regs) := by
  rcases x with _ | (_ | _ | _) | _ | _ <;> rfl

/-- What is set is there. -/
theorem get_obey_self (x : RemoteRegister) (p : Processor) (w : Word) :
    x.get (p.obey x.index w).regs = x.kept w := by
  rcases x with _ | (_ | _ | _) | _ | _
  case flags => exact Flags.toWord_ofWord w
  all_goals rfl

/-- What is not set is as it was. -/
theorem get_obey_of_ne {x y : RemoteRegister} (h : y ≠ x) (p : Processor) (w : Word) :
    y.get (p.obey x.index w).regs = y.get p.regs := by
  rcases x with _ | (_ | _ | _) | _ | _ <;> rcases y with _ | (_ | _ | _) | _ | _
  all_goals first | rfl | exact absurd rfl h

theorem overflow_obey (x : RemoteRegister) (p : Processor) (w : Word) :
    (p.obey x.index w).regs.overflow = p.regs.overflow := by
  rcases x with _ | (_ | _ | _) | _ | _ <;> rfl

/-- To set a register does nothing else to a processor, but that the program counter starts it. -/
theorem obey_index (x : RemoteRegister) (p : Processor) (w : Word) :
    p.obey x.index w = { p with
      regs := (p.obey x.index w).regs
      state := if x = .pc then .running else p.state
      fault := if x = .pc then none else p.fault } := by
  rcases x with _ | (_ | _ | _) | _ | _ <;> rfl

end RemoteRegister

/-! ### Control words of registers -/

namespace ControlBlock

theorem read_of_mayRead {c : ControlBlock} {requester : Word} {index : Nat}
    (h : c.mayRead requester index = true) (live : Word) :
    c.read requester index (some live) = (live, c.set index live) := by
  simp only [read, h, if_true, get_set]

theorem read_of_not_mayRead {c : ControlBlock} {requester : Word} {index : Nat}
    (h : c.mayRead requester index = false) (source : Option Word) :
    c.read requester index source = (0, c) := by
  simp [read, h]

end ControlBlock

namespace Processor

variable {p : Processor} {x : RemoteRegister} {index : Nat}

theorem allows_index (x : RemoteRegister) :
    AccessMasks.allows masks.privilegedRead x.index = true ∧
      AccessMasks.allows masks.privilegedWrite x.index = true := by
  rcases x with _ | (_ | _ | _) | _ | _ <;> exact ⟨rfl, rfl⟩

/-- The masks let the controller at the registers, and nobody else. -/
theorem mayRead_index (hmasks : p.control.masks = masks) (hindex : index % 16 = x.index)
    (requester : Word) :
    p.control.mayRead requester index = p.control.isPrivileged requester := by
  have hge := x.index_mem.1
  have hzero : index % 16 ≠ 0 := by omega
  have hexternal : AccessMasks.allows masks.externalRead (index % 16) = false :=
    Device.allows_externalRead (by omega)
  rw [ControlBlock.mayRead, hmasks]
  cases p.control.isPrivileged requester with
  | true => simp [hindex, (allows_index x).1]
  | false => simp [hexternal, hzero]

/-- A controller reads what is in the register. -/
theorem readControl_of_privileged (hmasks : p.control.masks = masks)
    (hindex : index % 16 = x.index) {requester : Word}
    (h : p.control.isPrivileged requester = true) :
    p.readControl requester index =
      (x.get p.regs, { p with control := p.control.set index (x.get p.regs) }) := by
  rw [readControl, hindex, x.live?_index,
    ControlBlock.read_of_mayRead ((mayRead_index hmasks hindex requester).trans h)]

/-- Anybody else reads nothing. -/
theorem readControl_of_not_privileged (hmasks : p.control.masks = masks)
    (hindex : index % 16 = x.index) {requester : Word}
    (h : p.control.isPrivileged requester = false) :
    p.readControl requester index = (0, p) := by
  rw [readControl,
    ControlBlock.read_of_not_mayRead ((mayRead_index hmasks hindex requester).trans h)]

/-- A controller's write is passed on to the register. -/
theorem writeControl_of_bound (hmasks : p.control.masks = masks) (hindex : index % 16 = x.index)
    {c : Word} (hc : c ≠ 0) (hid : c ≠ p.id) (hbound : p.control.bound = c) (w : Word) :
    p.writeControl c index w =
      { p with control := p.control.set x.index w }.obey x.index w := by
  have hge := x.index_mem.1
  have hclaim : p.control.claim c = p.control := if_neg (hbound ▸ hc)
  rw [writeControl, ControlBlock.write_of_heeds ⟨hid, hc, Or.inr hbound⟩ (by omega), hmasks,
    hindex, if_pos (Or.inr (allows_index x).2), hclaim]
  rfl

end Processor

/-! ### Control over the bank -/

namespace Bank

variable {b : Bank} {k : Nat} {c : Word} {q : Processor}

/-- A processor in a slot that is in the hands of a controller. The controller reads the registers
as they are, which changes nothing but control words. It sets the one register that it writes to,
and no other, and if that is the program counter it starts the processor; either way it stays in
control. Others, but the processor itself, read zeros where the controller reads registers, and
whatever they ask for, and of whatever device, the processor is left as it is. -/
structure IsDriven (b : Bank) (k : Nat) (c : Word) (q : Processor) : Prop where
  read : ∀ (x : RemoteRegister) (index : Nat), index % 16 = x.index →
    (b.read c k (.control index)).1 = x.get q.regs ∧
      ∃ r, (b.read c k (.control index)).2.get? k = some (.processor r) ∧
        r = { q with control := r.control } ∧ r.control.bound = c
  write : ∀ (x : RemoteRegister) (index : Nat), index % 16 = x.index → ∀ w : Word,
    ∃ r, (b.write c k (.control index) w).get? k = some (.processor r) ∧
      r = { q with
        control := r.control
        regs := r.regs
        state := if x = .pc then .running else q.state
        fault := if x = .pc then none else q.fault } ∧
      x.get r.regs = x.kept w ∧ (∀ y, y ≠ x → y.get r.regs = y.get q.regs) ∧
      r.regs.overflow = q.regs.overflow ∧ r.control.bound = c
  others : ∀ other : Word, other ≠ c → other ≠ q.id →
    (∀ (x : RemoteRegister) (index : Nat), index % 16 = x.index →
      (b.read other k (.control index)).1 = 0) ∧
    ∀ request, (b.serve other request).get? k = b.get? k

/-- What a requester reads in a control word of a processor. -/
theorem read_control (hq : b.get? k = some (.processor q)) (requester : Word) (index : Nat) :
    (b.read requester k (.control index)).1 = (q.readControl requester index).1 ∧
      (b.read requester k (.control index)).2.get? k =
        some (.processor (q.readControl requester index).2) := by
  have hreach : b.reach requester k (.control index) = some (k, .control index) := rfl
  constructor
  · rw [read_of_found hreach hq]
    rfl
  · rw [read_of_reach hreach, if_pos rfl, hq]
    rfl

theorem get?_write_control (hq : b.get? k = some (.processor q)) (requester : Word) (index : Nat)
    (w : Word) :
    (b.write requester k (.control index) w).get? k =
      some (.processor (q.writeControl requester index w)) := by
  have hreach : b.reach requester k (.control index) = some (k, .control index) := rfl
  rw [write_of_found hreach hq, get?_failIf, get?_put, if_pos ⟨rfl, lt_size_of_get? hq⟩]
  rfl

/-- Others reach a processor that is held over no way at all. -/
theorem get?_serve_of_held (hq : b.get? k = some (.processor q)) {other : Word}
    (h : (Device.processor q).IsHeldFrom other) (request : Request) :
    (b.serve other request).get? k = b.get? k := by
  rw [get?_serve]
  split
  · rfl
  · next found _ =>
    split
    · rcases Device.isLeftAlone_serve h found with hsame | ⟨held, hblock, -⟩
      · rw [hq, Option.map_some, hsame]
      · cases hblock
    · rfl

/-- **What the controller of a processor reads and writes, and what nobody else does.** -/
theorem isDriven (hq : b.get? k = some (.processor q)) (hmasks : q.control.masks = Processor.masks)
    (hc : c ≠ 0) (hid : c ≠ q.id) (hbound : q.control.bound = c) : b.IsDriven k c q where
  read x index hindex := by
    have hprivileged : q.control.isPrivileged c = true := by
      simp [ControlBlock.isPrivileged, hc, hbound]
    obtain ⟨hword, hslot⟩ := read_control hq c index
    rw [Processor.readControl_of_privileged hmasks hindex hprivileged] at hword hslot
    have hge := x.index_mem.1
    exact ⟨hword, _, hslot, rfl,
      (ControlBlock.bound_set ..).trans ((if_neg (by omega)).trans hbound)⟩
  write x index hindex w := by
    have hslot := get?_write_control hq c index w
    rw [Processor.writeControl_of_bound hmasks hindex hc hid hbound] at hslot
    refine ⟨_, hslot, ?_, x.get_obey_self _ w, fun y hy => RemoteRegister.get_obey_of_ne hy _ w,
      x.overflow_obey _ w, ?_⟩
    · rw [Device.control_obey]
      exact x.obey_index _ w
    · have hmem := x.index_mem
      rw [Device.control_obey, ControlBlock.bound_set, if_neg (by omega), hbound]
  others other hother hself := by
    have hheld : (Device.processor q).IsHeldFrom other :=
      ⟨hmasks, hself.symm, hbound.symm ▸ hc, hbound.symm ▸ hother.symm⟩
    refine ⟨fun x index hindex => ?_, get?_serve_of_held hq hheld⟩
    rw [(read_control hq other index).1,
      Processor.readControl_of_not_privileged hmasks hindex hheld.isPrivileged_eq]

end Bank

/-! ### At any time -/

/-- What a device keeps is not changed either by the number that it gets on a bank. -/
theorem Device.persists_numbered (d : Device) (number : Word) :
    d.Persists (d.withControl (d.control.setBankIndex number)) where
  id_eq := by
    rw [id, control_withControl]
    exact ControlBlock.id_set (by decide) _ _
  masks_eq := by
    rw [control_withControl]
    rfl
  kindMasks_eq := by cases d <;> rfl

/-- Neither requests nor steps change what a device keeps. -/
theorem Device.isKept_persists : Device.IsKept Device.Persists where
  refl := .refl
  trans := .trans
  serve requester request d := d.persists_serve requester request
  step := Machine.persists_step

namespace Bank

variable {b : Bank} {k : Nat} {c : Word} {p : Processor}

theorem persists_acts (b : Bank) (k : Nat) (events : List Event) :
    Option.Rel Device.Persists (b.get? k) ((b.acts events).get? k) :=
  b.rel_acts Device.isKept_persists fun _ _ b =>
    b.rel_act Device.isKept_persists k (fun _ _ _ => ⟨rfl, rfl, rfl⟩) fun cpu device _ =>
      b.rel_attach Device.isKept_persists k cpu device Device.persists_numbered
        fun _ _ => ⟨rfl, rfl, rfl⟩

/-- A processor is still there whatever happens, with its id and its masks. -/
theorem exists_processor_acts (hp : b.get? k = some (.processor p))
    (hmasks : p.control.masks = Processor.masks) (events : List Event) :
    ∃ q, (b.acts events).get? k = some (.processor q) ∧ q.id = p.id ∧
      q.control.masks = Processor.masks := by
  obtain ⟨e, he, hpersists⟩ := exists_right_of_rel (b.persists_acts k events) hp
  cases e with
  | processor q => exact ⟨q, he, hpersists.id_eq, hpersists.masks_eq.trans hmasks⟩
  | block d =>
    have hkind : BlockMemory.masks = Processor.masks := hpersists.kindMasks_eq
    exact absurd hkind (by decide)

/-- **Remote control is coherent.** Take a processor on any bank, and a controller that is not the
processor itself. Whatever may then happen on the bank, in whatever order, the processor's own steps
and the reads and writes of the controller and of others among it, the processor is still there, and
at any time at which it is bound to the controller it is in the hands of the controller: this one
reads and sets the registers as they are at that time, and others neither read nor set them. -/
theorem isDriven_acts (hp : b.get? k = some (.processor p))
    (hmasks : p.control.masks = Processor.masks) (hc : c ≠ 0) (hid : c ≠ p.id)
    (events : List Event) :
    ∃ q, (b.acts events).get? k = some (.processor q) ∧ q.id = p.id ∧
      (q.control.bound = c → (b.acts events).IsDriven k c q) := by
  obtain ⟨q, hq, hsame, hkept⟩ := exists_processor_acts hp hmasks events
  exact ⟨q, hq, hsame, isDriven hq hkept hc (hsame ▸ hid)⟩

/-- A controller sets a register, which the processor then sets itself, and which somebody else
tries to set. The controller reads what the processor has set, although the copy is what it wrote.
-/
theorem isDriven_acts_stepping :
    let program :=
      [⟨.copy, .imm, .reg .r1, 1, 0, .always, false⟩, Inst.halt].map Inst.encode
    let b := (ofList [.processor (.new 2 1 0)]).acts [.load 0 program,
      .ask 1 (.write 0 (.control 8) 5), .step 0, .ask 3 (.write 0 (.control 8) 9)]
    ∃ q, b.get? 0 = some (.processor q) ∧ b.IsDriven 0 1 q ∧ q.control.get 8 = 5 ∧
      (b.read 1 0 (.control 8)).1 = q.regs.r1 ∧ q.regs.r1 = 1 ∧
      (b.read 3 0 (.control 8)).1 = 0 := by
  intro program b
  have hnew : (ofList [.processor (.new 2 1 0)]).get? 0 = some (.processor (.new 2 1 0)) := rfl
  have hcontrol : (b.get? 0).map (fun d => (d.control.bound, d.control.get 8)) = some (1, 5) := by
    decide +kernel
  have hlive : (b.read 1 0 (.control 8)).1 = 1 := by decide +kernel
  obtain ⟨q, hq, hid, hdriven⟩ := isDriven_acts (c := 1) hnew rfl (by decide) (by decide)
    [.load 0 program, .ask 1 (.write 0 (.control 8) 5), .step 0, .ask 3 (.write 0 (.control 8) 9)]
  rw [show b.get? 0 = _ from hq] at hcontrol
  obtain ⟨hbound, hcopy⟩ := Prod.mk.inj (Option.some.inj hcontrol)
  have hcontroller : b.IsDriven 0 1 q := hdriven hbound
  have hread := (hcontroller.read (.general .r1) 8 rfl).1
  have hother : (3 : Word) ≠ q.id := by
    rw [hid]
    decide
  exact ⟨q, hq, hcontroller, hcopy, hread, hread.symm.trans hlive,
    (hcontroller.others 3 (by decide) hother).1 (.general .r1) 8 rfl⟩

end Bank

end WordMachine
