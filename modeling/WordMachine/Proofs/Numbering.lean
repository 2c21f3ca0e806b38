import WordMachine.Proofs.Slots
import WordMachine.Proofs.Windows

/-!
# Numbers on a bank

A processor numbers the devices on its bank from 1, in the order in which they were put there. The
number is told to whoever puts a device there. It is written into the control block of the device,
where one byte is left for it beside the sort of the device. And it stands in the addresses through
which the processor reaches the control words of its devices, where it is a byte as well. Nothing
keeps a processor from having more devices than a byte can number.

Whatever happens to a device, the word with its number stays as it is until the device is put on a
bank the next time (`Device.KeepsWord`), and the devices of a processor change only by one that is
put behind them (`Bank.peersAt_acts`). So how the numbers come out after any number of events is a
matter of the order of the devices alone.

## Main results

* `Bank.peersAt_acts`: the devices on a bank stand in the order in which they were put there
* `Bank.exists_get?_acts`: what becomes of a device that is put on a bank
* `Bank.numbered_acts`: the three numbers of a device, and how far they agree
* `Bank.exists_number_lost`: a device whose control block has not the number that was told
-/

namespace WordMachine

/-! ### The word with the number -/

namespace ControlBlock

/-- The byte beside the number of a device, which says of what sort the device is. -/
def typeByte (c : ControlBlock) : Nat := (c.get 1).toNat % 256

theorem toNat_get_setBankIndex (c : ControlBlock) (index : Word) :
    ((c.setBankIndex index).get 1).toNat = index.toNat % 256 * 256 + c.typeByte := by
  have htype : (c.get 1).toNat % 256 < 256 := Nat.mod_lt _ (by decide)
  rw [setBankIndex, get_set, if_pos rfl, Word.toNat_ofNat_of_lt (by omega), typeByte]

theorem toNat_bankIndex (c : ControlBlock) : c.bankIndex.toNat = (c.get 1).toNat / 256 := by
  have hword := Word.toNat_lt (c.get 1)
  rw [bankIndex, Word.toNat_ofNat_of_lt (by omega)]

/-- A word that neither the device nor its controller may write is as it was behind every write. -/
theorem get_write {c : ControlBlock} {kept : Nat} (htwo : kept % 16 ≠ 2)
    (hown : AccessMasks.allows c.masks.internalWrite (kept % 16) = false)
    (hcontroller : AccessMasks.allows c.masks.privilegedWrite (kept % 16) = false)
    (requester : Word) (index : Nat) (w : Word) :
    (c.write requester index w).1.get kept = c.get kept := by
  have hset {mask : Word} (c : ControlBlock) (h : AccessMasks.allows mask (index % 16) = true)
      (hkept : AccessMasks.allows mask (kept % 16) = false) :
      (c.set (index % 16) w).get kept = c.get kept := by
    rw [get_set, if_neg fun heq => ?_]
    rw [Nat.mod_mod] at heq
    rw [heq, hkept] at h
    cases h
  have hclaim : (c.claim requester).get kept = c.get kept := by
    rw [claim]
    split
    · rw [get_set, if_neg (Ne.symm htwo)]
    · rfl
  by_cases hindex : index % 16 = 0
  · rw [write_zero hindex]
  by_cases hid : requester = c.id
  · subst hid
    rw [write_own]
    dsimp only
    split
    · next h => exact hset c h.2 hown
    · rfl
  by_cases h : c.Heeds requester
  · rw [write_of_heeds h hindex]
    split
    · next hallowed =>
      rcases hallowed with hallowed | hallowed
      · rw [get_set, if_neg fun heq => htwo (by omega), hclaim]
      · exact (hset _ hallowed hcontroller).trans hclaim
    · exact hclaim
  · rw [write_of_not_heeds hid h]

end ControlBlock

namespace Device

/-- The slots of the devices on the bank of a processor. -/
def peers? : Device → Option (List Nat)
  | processor p => some p.peers
  | block _ => none

/-- What becomes of a device that is not put on a bank: its control block has the word with the
number as it was. -/
structure KeepsWord (d e : Device) : Prop where
  masks_eq : e.control.masks = d.control.masks
  kindMasks_eq : e.kindMasks = d.kindMasks
  get_eq : d.control.masks = d.kindMasks → e.control.get 1 = d.control.get 1

namespace KeepsWord

variable {d e f : Device}

theorem refl (d : Device) : d.KeepsWord d := ⟨rfl, rfl, fun _ => rfl⟩

theorem trans (h : d.KeepsWord e) (h' : e.KeepsWord f) : d.KeepsWord f where
  masks_eq := h'.masks_eq.trans h.masks_eq
  kindMasks_eq := h'.kindMasks_eq.trans h.kindMasks_eq
  get_eq hmasks := by
    rw [h'.get_eq (by rw [h.masks_eq, h.kindMasks_eq, hmasks]), h.get_eq hmasks]

theorem masks (h : d.KeepsWord e) (hd : d.control.masks = d.kindMasks) :
    e.control.masks = e.kindMasks := by
  rw [h.masks_eq, h.kindMasks_eq, hd]

end KeepsWord

/-- What is read in a control word is brought up to date only behind the number. -/
theorem get_one_readControl (requester : Word) (index : Nat) (d : Device) :
    (d.readControl requester index).2.control.get 1 = d.control.get 1 := by
  have hread (c : ControlBlock) (live : Option Word) (h : live.isSome → index % 16 ≠ 1) :
      (c.read requester index live).2.get 1 = c.get 1 := by
    cases live with
    | none => rw [ControlBlock.read_none]
    | some live =>
      rw [ControlBlock.read_some]
      split
      · rw [ControlBlock.get_set, if_neg (h rfl)]
      · rfl
  cases d with
  | processor p =>
    refine hread p.control _ fun hlive hindex => ?_
    rw [Processor.live?_eq_none (by omega)] at hlive
    cases hlive
  | block d =>
    refine hread d.control _ fun hlive hindex => ?_
    obtain ⟨live, hlive⟩ := Option.isSome_iff_exists.mp hlive
    have hsix := (live?_block hlive).1
    omega

/-- The masks let nobody write the word with the number. -/
theorem allows_one_kindMasks (d : Device) :
    AccessMasks.allows d.kindMasks.internalWrite 1 = false ∧
      AccessMasks.allows d.kindMasks.privilegedWrite 1 = false := by
  have hprocessor : AccessMasks.allows Processor.masks.internalWrite 1 = false ∧
      AccessMasks.allows Processor.masks.privilegedWrite 1 = false := by
    decide
  have hblock : AccessMasks.allows BlockMemory.masks.internalWrite 1 = false ∧
      AccessMasks.allows BlockMemory.masks.privilegedWrite 1 = false := by
    decide
  cases d with
  | processor p => exact hprocessor
  | block d => exact hblock

theorem get_one_writeControl {d : Device} (h : d.control.masks = d.kindMasks) (requester : Word)
    (index : Nat) (w : Word) :
    (d.writeControl requester index w).control.get 1 = d.control.get 1 := by
  obtain ⟨hown, hcontroller⟩ := d.allows_one_kindMasks
  rw [← h] at hown hcontroller
  rw [control_writeControl]
  exact ControlBlock.get_write (by decide) hown hcontroller ..

theorem keepsWord_serve (requester : Word) (request : Request) (d : Device) :
    d.KeepsWord (d.serve requester request) := by
  have hpersists := d.persists_serve requester request
  refine ⟨hpersists.masks_eq, hpersists.kindMasks_eq, fun hmasks => ?_⟩
  rcases request with ⟨_, _ | index⟩ | ⟨_, addr | index, w⟩
  · rfl
  · exact get_one_readControl requester index d
  · change (d.writeMemory requester addr w).control.get 1 = _
    rw [writeMemory]
    split
    · rw [control_mapMemory]
    · rfl
  · exact get_one_writeControl hmasks requester index w

/-- Of its own control block a processor writes other words. -/
theorem isKept_get_one : ControlBlock.IsKept fun c e =>
    e.masks = c.masks ∧ (c.masks = Processor.masks → e.get 1 = c.get 1) where
  refl _ := ⟨rfl, fun _ => rfl⟩
  trans h h' :=
    ⟨h'.1.trans h.1, fun hmasks => (h'.2 (h.1.trans hmasks)).trans (h.2 hmasks)⟩
  read c index live hlive := by
    cases live with
    | none =>
      rw [ControlBlock.read_none]
      exact ⟨rfl, fun _ => rfl⟩
    | some live =>
      have hindex := hlive rfl
      rw [ControlBlock.read_some]
      split
      · exact ⟨rfl, fun _ => by rw [ControlBlock.get_set, if_neg (by omega)]⟩
      · exact ⟨rfl, fun _ => rfl⟩
  write c index w := by
    refine ⟨ControlBlock.masks_write .., fun hmasks => ControlBlock.get_write (by decide) ?_ ?_ ..⟩
    · rw [hmasks]
      decide
    · rw [hmasks]
      decide

theorem isKept_keepsWord : IsKept KeepsWord where
  refl := .refl
  trans := .trans
  serve requester request d := d.keepsWord_serve requester request
  step m :=
    have h := m.control_step isKept_get_one
    ⟨h.1, rfl, h.2⟩

/-- Requests and steps leave the devices on a bank alone. -/
theorem isKept_peers? : IsKept fun d e => e.peers? = d.peers? where
  refl _ := rfl
  trans h h' := h'.trans h
  serve requester request d := by
    cases d with
    | processor p =>
      rcases request with ⟨_, _ | index⟩ | ⟨_, addr | index, w⟩
      · rfl
      · rfl
      · change ((processor p).writeMemory requester addr w).peers? = _
        rw [writeMemory]
        split <;> rfl
      · change some (p.writeControl requester index w).peers = _
        rw [Processor.writeControl]
        dsimp only
        split
        · unfold Processor.obey
          split <;> rfl
        · rfl
    | block d =>
      obtain ⟨e, he⟩ := serve_block requester request d
      rw [he]
      rfl
  step m := by
    rcases m.continues_step with h | ⟨-, -, hstep⟩
    · exact congrArg some h.peers_eq
    · rw [hstep]
      rfl

end Device

/-! ### What is put on a bank -/

namespace Bank

/-- The slot of the device that an event puts on the bank of the processor in a slot. -/
def Event.deviceFor? (cpu : Nat) : Event → Option Nat
  | .attach other device => if other = cpu then some device else none
  | _ => none

/-- The slots of the devices that are put on the bank of the processor in a slot, in order. -/
def attached (cpu : Nat) (events : List Event) : List Nat := events.filterMap (Event.deviceFor? cpu)

variable {b : Bank} {cpu s k : Nat} {events : List Event}

theorem deviceFor?_eq_some_iff {event : Event} :
    event.deviceFor? cpu = some s ↔ event = .attach cpu s := by
  cases event with
  | attach other device =>
    rw [Event.deviceFor?]
    split
    · next h => simp [h]
    · next h => simp [h]
  | _ => exact ⟨nofun, nofun⟩

theorem attached_split (cpu s : Nat) (front back : List Event) :
    attached cpu (front ++ .attach cpu s :: back)
      = attached cpu front ++ s :: attached cpu back := by
  rw [attached, List.filterMap_append, List.filterMap_cons_some (deviceFor?_eq_some_iff.mpr rfl)]
  rfl

theorem mem_attached_iff : s ∈ attached cpu events ↔ .attach cpu s ∈ events := by
  simp only [attached, List.mem_filterMap, deviceFor?_eq_some_iff, exists_eq_right]

/-- Every device on the list was put on the bank by an event, behind those that stand before it. -/
theorem exists_split {i : Nat} (h : (attached cpu events)[i]? = some s) :
    ∃ front back, events = front ++ .attach cpu s :: back ∧ (attached cpu front).length = i := by
  induction events generalizing i with
  | nil => cases h
  | cons event rest ih =>
    cases hdevice : event.deviceFor? cpu with
    | none =>
      rw [attached, List.filterMap_cons_none hdevice] at h
      obtain ⟨front, back, rfl, hlength⟩ := ih h
      exact ⟨event :: front, back, rfl, by rwa [attached, List.filterMap_cons_none hdevice]⟩
    | some first =>
      rw [attached, List.filterMap_cons_some hdevice] at h
      cases i with
      | zero =>
        obtain rfl := Option.some.inj h
        exact ⟨[], rest, by rw [deviceFor?_eq_some_iff.mp hdevice]; rfl, rfl⟩
      | succ i =>
        obtain ⟨front, back, rfl, hlength⟩ := ih h
        refine ⟨event :: front, back, rfl, ?_⟩
        rw [attached, List.filterMap_cons_some hdevice]
        exact congrArg (· + 1) hlength

/-! ### Attaching -/

theorem attach_of_not_processor (h : ∀ p, b.get? cpu ≠ some (.processor p)) (device : Nat) :
    b.attach cpu device = b := by
  rw [attach]
  split
  · next p hp => exact absurd hp (h p)
  · rfl

/-- What becomes of the devices when one is put on the bank of a processor. -/
theorem get?_attach {p : Processor} (hp : b.get? cpu = some (.processor p)) (device k : Nat) :
    (b.attach cpu device).get? k =
      ((if device = k then
          (b.get? k).map fun d => d.withControl (d.control.setBankIndex (nextIndex p))
        else b.get? k).map fun d =>
          if cpu = k then
            match d with
            | .processor p => .processor { p with peers := p.peers ++ [device] }
            | d => d
          else d) := by
  rw [attach, hp]
  dsimp only
  rw [get?_update, get?_update]
  by_cases hk : cpu = k
  · rw [if_pos hk]
    exact Option.map_congr fun d _ => (if_pos hk).symm
  · rw [if_neg hk]
    simp only [if_neg hk, Option.map_id']

/-- The devices on the bank of the processor in a slot, if there is one. -/
def peersAt (b : Bank) (slot : Nat) : Option (List Nat) := (b.get? slot).bind Device.peers?

theorem peersAt_eq_some_iff {peers : List Nat} :
    b.peersAt k = some peers ↔ ∃ p, b.get? k = some (.processor p) ∧ p.peers = peers := by
  rw [peersAt, Option.bind_eq_some_iff]
  constructor
  · rintro ⟨p | d, hd, hpeers⟩
    · exact ⟨p, hd, Option.some.inj hpeers⟩
    · cases hpeers
  · rintro ⟨p, hp, rfl⟩
    exact ⟨_, hp, rfl⟩

theorem peersAt_act (b : Bank) (k : Nat) (event : Event) :
    (b.act event).peersAt k = (b.peersAt k).map (· ++ (event.deviceFor? k).toList) := by
  by_cases hattach : ∃ cpu device, event = .attach cpu device
  · obtain ⟨cpu, device, rfl⟩ := hattach
    change (b.attach cpu device).peersAt k = _
    by_cases hcpu : ∃ p, b.get? cpu = some (.processor p)
    · obtain ⟨p, hp⟩ := hcpu
      rw [peersAt, get?_attach hp, Event.deviceFor?, peersAt]
      by_cases hk : cpu = k
      · subst hk
        rw [hp]
        by_cases hself : device = cpu <;> simp [hself, Device.peers?, Device.withControl]
      · rcases b.get? k with _ | (p | d) <;> by_cases hdevice : device = k <;>
          simp [hk, hdevice, Device.peers?, Device.withControl]
    · rw [attach_of_not_processor fun p hp => hcpu ⟨p, hp⟩]
      by_cases hk : cpu = k
      · have hnone : b.peersAt k = none := Option.eq_none_iff_forall_ne_some.mpr fun peers h => by
          obtain ⟨p, hp, -⟩ := peersAt_eq_some_iff.mp h
          exact hcpu ⟨p, hk ▸ hp⟩
        rw [hnone]
        rfl
      · simp [Event.deviceFor?, hk]
  · have hrel := b.rel_act Device.isKept_peers? k (fun _ _ _ => rfl)
      fun cpu device heq => absurd ⟨cpu, device, heq⟩ hattach
    have hnone : event.deviceFor? k = none :=
      Option.eq_none_iff_forall_ne_some.mpr fun s hs =>
        hattach ⟨k, s, deviceFor?_eq_some_iff.mp hs⟩
    simp only [hnone, Option.toList_none, List.append_nil, Option.map_id', peersAt]
    revert hrel
    generalize b.get? k = x, (b.act event).get? k = y
    rintro (h | -)
    · exact h
    · rfl

/-- **The devices on a bank stand in the order in which they were put there**, behind those that
were there before. -/
theorem peersAt_acts (b : Bank) (k : Nat) (events : List Event) :
    (b.acts events).peersAt k = (b.peersAt k).map (· ++ attached k events) := by
  induction events generalizing b with
  | nil => simp [acts, attached]
  | cons event rest ih =>
    change ((b.act event).acts rest).peersAt k = _
    rw [ih, peersAt_act, Option.map_map]
    refine congrArg (Option.map · _) (funext fun peers => ?_)
    cases h : event.deviceFor? k <;> simp [attached, h]

/-- Unless it is put on a bank, a device has the word with its number as it was. -/
theorem keepsWord_act (b : Bank) {k : Nat} {event : Event} (h : ∀ cpu, event ≠ .attach cpu k) :
    Option.Rel Device.KeepsWord (b.get? k) ((b.act event).get? k) := by
  refine b.rel_act Device.isKept_keepsWord k (fun _ _ _ => ⟨rfl, rfl, fun _ => rfl⟩) ?_
  rintro cpu device rfl
  have hdevice : device ≠ k := fun hk => h cpu (hk ▸ rfl)
  by_cases hcpu : ∃ p, b.get? cpu = some (.processor p)
  · obtain ⟨p, hp⟩ := hcpu
    rw [get?_attach hp, if_neg hdevice]
    refine rel_map (fun d => ?_) _
    split
    · cases d <;> exact ⟨rfl, rfl, fun _ => rfl⟩
    · exact .refl d
  · rw [attach_of_not_processor fun p hp => hcpu ⟨p, hp⟩]
    exact rel_refl Device.isKept_keepsWord _

theorem keepsWord_acts (b : Bank) {k : Nat} {events : List Event}
    (h : ∀ cpu, .attach cpu k ∉ events) :
    Option.Rel Device.KeepsWord (b.get? k) ((b.acts events).get? k) :=
  b.rel_acts Device.isKept_keepsWord fun _ hevent b =>
    b.keepsWord_act fun cpu heq => h cpu (heq ▸ hevent)

/-- **What becomes of a device that is put on a bank**, and on no other before or behind. -/
theorem exists_get?_acts {p : Processor} {d : Device} {front back : List Event}
    (hp : (b.acts front).get? cpu = some (.processor p)) (hd : b.get? s = some d) (hs : s ≠ cpu)
    (hmasks : d.control.masks = d.kindMasks) (hfront : ∀ other, .attach other s ∉ front)
    (hback : ∀ other, .attach other s ∉ back) :
    ∃ e, (b.acts (front ++ .attach cpu s :: back)).get? s = some e ∧
      e.control.bankIndex.toNat = (nextIndex p).toNat % 256 ∧
      e.control.typeByte = d.control.typeByte := by
  obtain ⟨d', hd', hbefore⟩ := exists_right_of_rel (b.keepsWord_acts hfront) hd
  have hput : ((b.acts front).act (.attach cpu s)).get? s
      = some (d'.withControl (d'.control.setBankIndex (nextIndex p))) := by
    change ((b.acts front).attach cpu s).get? s = _
    rw [get?_attach hp, if_pos rfl, hd']
    simp only [if_neg hs.symm, Option.map_some]
  obtain ⟨e, he, hbehind⟩ := exists_right_of_rel (keepsWord_acts _ hback) hput
  have hacts : b.acts (front ++ .attach cpu s :: back)
      = ((b.acts front).act (.attach cpu s)).acts back := by
    rw [acts, List.foldl_append]
    rfl
  have hword := hbehind.get_eq (by
    have hmasks' := hbefore.masks hmasks
    rw [Device.control_withControl]
    cases d' <;> exact hmasks')
  rw [Device.control_withControl] at hword
  have hnumber : (e.control.get 1).toNat
      = (nextIndex p).toNat % 256 * 256 + d.control.typeByte := by
    rw [hword, ControlBlock.toNat_get_setBankIndex, ControlBlock.typeByte, hbefore.get_eq hmasks,
      ControlBlock.typeByte]
  have htype : d.control.typeByte < 256 := Nat.mod_lt _ (by decide)
  refine ⟨e, hacts ▸ he, ?_, ?_⟩
  · rw [ControlBlock.toNat_bankIndex, hnumber]
    omega
  · rw [ControlBlock.typeByte, hnumber]
    omega

end Bank

/-! ### Addresses with a number -/

/-- With bit 0 of the control register set, the lowest addresses lead away from local memory. -/
theorem Registers.isBanked_of_lt {rs : Registers} (hbit : rs.control.toNat % 2 = 1) {addr : Word}
    (h : addr.toNat < 4096) : rs.isBanked addr = true := by
  have hshift : addr >>> 12 = 0 := by
    apply UInt16.toNat_inj.mp
    rw [UInt16.toNat_shiftRight, Nat.shiftRight_eq_div_pow]
    exact Nat.div_eq_of_lt h
  have hand : (rs.control &&& (1 : Word)).toNat = 1 := by
    rw [UInt16.toNat_and]
    exact (Nat.and_one_is_mod _).trans hbit
  rw [isBanked, hshift, bne_iff_ne]
  intro hzero
  rw [show (1 : Word) <<< (0 : Word) = 1 from rfl] at hzero
  rw [hzero] at hand
  cases hand

namespace Processor

variable {p : Processor} {addr : Word} {number s w : Nat}

/-- The number of a peer is the second and third digit of the addresses of its control words. -/
theorem route_eq_control_iff (hbit : p.regs.control.toNat % 2 = 1) :
    p.route addr = .peer number (.control w) ↔
      0 < number ∧ number < 256 ∧ w < 16 ∧ addr.toNat = 16 * number + w := by
  rw [route]
  by_cases hlow : addr.toNat < 4096
  · rw [if_pos (Registers.isBanked_of_lt hbit hlow), Nat.div_eq_of_lt hlow]
    rcases hdigits : addr.toNat / 16 with _ | n
    · constructor
      · intro h
        cases h
      · omega
    · simp only [Route.peer.injEq, Place.control.injEq]
      omega
  · constructor
    · intro h
      split at h
      · split at h
        · omega
        · cases h
      · cases h
    · omega

theorem peerPlace?_eq_some_iff {place : Place} :
    p.peerPlace? addr = some (s, place) ↔
      ∃ number, p.route addr = .peer number place ∧ p.peer? number = some s := by
  rw [peerPlace?]
  cases p.route addr with
  | own there => simp
  | peer number there =>
    simp only [Option.map_eq_some_iff, Prod.mk.injEq, Route.peer.injEq]
    constructor
    · rintro ⟨slot, hslot, rfl, rfl⟩
      exact ⟨number, ⟨rfl, rfl⟩, hslot⟩
    · rintro ⟨_, ⟨rfl, rfl⟩, hslot⟩
      exact ⟨s, hslot, rfl, rfl⟩

/-- **Which addresses lead to control words of peers**: those with a number that a byte can hold. -/
theorem peerPlace?_eq_control_iff (hbit : p.regs.control.toNat % 2 = 1) :
    p.peerPlace? addr = some (s, .control w) ↔
      ∃ i, p.peers[i]? = some s ∧ i + 1 < 256 ∧ w < 16 ∧ addr.toNat = 16 * (i + 1) + w := by
  simp only [peerPlace?_eq_some_iff, route_eq_control_iff hbit]
  constructor
  · rintro ⟨number, ⟨hpos, hbyte, hw, haddr⟩, hpeer⟩
    obtain ⟨i, rfl⟩ := Nat.exists_eq_succ_of_ne_zero (Nat.ne_of_gt hpos)
    exact ⟨i, hpeer, hbyte, hw, haddr⟩
  · rintro ⟨i, hpeer, hbyte, hw, haddr⟩
    exact ⟨i + 1, ⟨Nat.succ_pos i, hbyte, hw, haddr⟩, hpeer⟩

/-- A peer that has one number is reached at the addresses with this number. -/
theorem peerPlace?_eq_control_iff_of_nodup (hbit : p.regs.control.toNat % 2 = 1)
    (hnodup : p.peers.Nodup) {i : Nat} (hs : p.peers[i]? = some s) :
    p.peerPlace? addr = some (s, .control w) ↔
      i + 1 < 256 ∧ w < 16 ∧ addr.toNat = 16 * (i + 1) + w := by
  rw [peerPlace?_eq_control_iff hbit]
  constructor
  · rintro ⟨j, hj, hrest⟩
    have hlt := (List.getElem?_eq_some_iff.mp hs).1
    rwa [(List.getElem?_inj hlt hnodup).mp (hs.trans hj.symm)]
  · exact fun hrest => ⟨i, hs, hrest⟩

end Processor

namespace Machine

/-- At an address a machine reads and writes a control word of the device in a slot of its bank, and
comes to nothing else. -/
def ReachesControl (m : Machine) (addr : Word) (slot index : Nat) : Prop :=
  ∃ d, m.bank.get? slot = some d ∧
    m.read addr = ((d.readControl m.cpu.id index).1,
      { m with bank := m.bank.put slot (d.readControl m.cpu.id index).2 }) ∧
    ∀ w, m.write addr w = { m with bank := m.bank.put slot (d.writeControl m.cpu.id index w) }

theorem reachesControl_of_peerPlace? {m : Machine} {addr : Word} {slot index : Nat} {d : Device}
    (h : m.cpu.peerPlace? addr = some (slot, .control index)) (hd : m.bank.get? slot = some d) :
    m.ReachesControl addr slot index := by
  obtain ⟨number, hroute, hpeer⟩ := Processor.peerPlace?_eq_some_iff.mp h
  have hreach : m.bank.reach m.cpu.id slot (.control index) = some (slot, .control index) := rfl
  refine ⟨d, hd, ?_, fun w => ?_⟩
  · simp only [read, hroute, hpeer]
    rw [Bank.read_of_found hreach hd, Device.overflows, Bank.failIf_false]
    rfl
  · simp only [write, hroute, hpeer]
    rw [Bank.write_of_found hreach hd, Device.overflows, Bank.failIf_false]
    rfl

end Machine

namespace Bank

variable {b : Bank} {cpu : Nat} {events : List Event}

/-- A processor is still there, with what was put on its bank behind what it had. -/
theorem exists_peers_acts {p : Processor} (hp : b.get? cpu = some (.processor p))
    (events : List Event) :
    ∃ q, (b.acts events).get? cpu = some (.processor q) ∧
      q.peers = p.peers ++ attached cpu events := by
  apply peersAt_eq_some_iff.mp
  rw [peersAt_acts, peersAt_eq_some_iff.mpr ⟨p, hp, rfl⟩]
  rfl

/-- **The number in a control block** is the low byte of the place at which the device was put on
the bank. -/
theorem exists_number_acts {p : Processor} {d : Device} {i s : Nat}
    (hp : b.get? cpu = some (.processor p)) (hpeers : p.peers = []) (hd : b.get? s = some d)
    (hne : s ≠ cpu) (hmasks : d.control.masks = d.kindMasks) (hnodup : (attached cpu events).Nodup)
    (honly : ∀ other, .attach other s ∈ events → other = cpu)
    (hs : (attached cpu events)[i]? = some s) :
    ∃ e, (b.acts events).get? s = some e ∧ e.control.bankIndex.toNat = (i + 1) % 256 ∧
      e.control.typeByte = d.control.typeByte := by
  obtain ⟨front, back, rfl, rfl⟩ := exists_split hs
  obtain ⟨r, hr, hrpeers⟩ := exists_peers_acts hp front
  rw [attached_split, List.nodup_append, List.nodup_cons] at hnodup
  have hfront (other : Nat) : .attach other s ∉ front := fun hmem => by
    obtain rfl := honly other (List.mem_append_left _ hmem)
    exact hnodup.2.2 s (mem_attached_iff.mpr hmem) s List.mem_cons_self rfl
  have hback (other : Nat) : .attach other s ∉ back := fun hmem => by
    obtain rfl := honly other (List.mem_append_right _ (List.mem_cons_of_mem _ hmem))
    exact hnodup.2.1.1 (mem_attached_iff.mpr hmem)
  obtain ⟨e, he, hindex, htype⟩ := exists_get?_acts hr hd hne hmasks hfront hback
  refine ⟨e, he, ?_, htype⟩
  rw [hindex, nextIndex, hrpeers, hpeers, List.nil_append, UInt16.toNat_ofNat']
  omega

/-- **The three numbers of a device.** Take a processor with nothing on its bank, and whatever may
then happen, as long as each device that is put there is another than the processor, is put there
once, and is put on no other bank. Then the devices on the bank are the ones that were put there, in
this order. When the `i`-th of them was put there, counted from 0, the word `i + 1` was told. In the
control block of the device there is the low byte of this number, which is all of it exactly if it
fits into a byte, beside the byte for the sort of the device, which is as it was. Two devices have
one number in their control blocks exactly if their places differ by a multiple of 256. With bit 0
of the control register set, an address leads to control word `w` of the device exactly if the
number fits into a byte and the address is made of the number and `w`, and to read or to write there
is to read or write this word. -/
theorem numbered_acts {p : Processor}
    (hmasks : ∀ k d, b.get? k = some d → d.control.masks = d.kindMasks)
    (hp : b.get? cpu = some (.processor p)) (hpeers : p.peers = [])
    (hdevices : ∀ s ∈ attached cpu events, s ≠ cpu ∧ ∃ d, b.get? s = some d)
    (hnodup : (attached cpu events).Nodup)
    (honly : ∀ s ∈ attached cpu events, ∀ other, .attach other s ∈ events → other = cpu) :
    let slots := attached cpu events
    ∃ q, (b.acts events).get? cpu = some (.processor q) ∧ q.peers = slots ∧
      (∀ front s back, events = front ++ .attach cpu s :: back →
        let i := (attached cpu front).length
        slots[i]? = some s ∧ ∃ r, (b.acts front).get? cpu = some (.processor r) ∧
          nextIndex r = UInt16.ofNat (i + 1)) ∧
      (∀ i s, slots[i]? = some s →
        ∃ d e, b.get? s = some d ∧ (b.acts events).get? s = some e ∧
          e.control.bankIndex.toNat = (i + 1) % 256 ∧
          (e.control.bankIndex = UInt16.ofNat (i + 1) ↔ (i + 1) % 65536 < 256) ∧
          e.control.typeByte = d.control.typeByte) ∧
      (∀ i j s t d e, slots[i]? = some s → slots[j]? = some t →
        (b.acts events).get? s = some d → (b.acts events).get? t = some e →
        (d.control.bankIndex = e.control.bankIndex ↔ i % 256 = j % 256)) ∧
      (q.regs.control.toNat % 2 = 1 → ∀ i s addr w, slots[i]? = some s →
        (q.peerPlace? addr = some (s, .control w) ↔
          i + 1 < 256 ∧ w < 16 ∧ addr.toNat = 16 * (i + 1) + w) ∧
        (i + 1 < 256 → w < 16 → addr.toNat = 16 * (i + 1) + w →
          ((b.acts events).machine cpu q).ReachesControl addr s w)) := by
  intro slots
  have hprocessor (events : List Event) :
      ∃ r, (b.acts events).get? cpu = some (.processor r) ∧ r.peers = attached cpu events := by
    obtain ⟨r, hr, hrpeers⟩ := exists_peers_acts hp events
    exact ⟨r, hr, by rw [hrpeers, hpeers, List.nil_append]⟩
  have hnumber (i s : Nat) (hs : slots[i]? = some s) :
      ∃ d e, b.get? s = some d ∧ (b.acts events).get? s = some e ∧
        e.control.bankIndex.toNat = (i + 1) % 256 ∧
        e.control.typeByte = d.control.typeByte := by
    have hmem : s ∈ slots := List.mem_of_getElem? hs
    obtain ⟨hne, d, hd⟩ := hdevices s hmem
    obtain ⟨e, he, hindex, htype⟩ :=
      exists_number_acts hp hpeers hd hne (hmasks s d hd) hnodup (honly s hmem) hs
    exact ⟨d, e, hd, he, hindex, htype⟩
  obtain ⟨q, hq, hqpeers⟩ := hprocessor events
  refine ⟨q, hq, hqpeers, ?_, ?_, ?_, ?_⟩
  · intro front s back hevents i
    obtain ⟨r, hr, hrpeers⟩ := hprocessor front
    refine ⟨?_, r, hr, by rw [nextIndex, hrpeers]⟩
    simp only [slots, hevents, attached_split, i, List.getElem?_append_right (Nat.le_refl _),
      Nat.sub_self, List.getElem?_cons_zero]
  · intro i s hs
    obtain ⟨d, e, hd, he, hindex, htype⟩ := hnumber i s hs
    refine ⟨d, e, hd, he, hindex, ?_, htype⟩
    rw [← UInt16.toNat_inj, hindex, UInt16.toNat_ofNat']
    omega
  · intro i j s t d e hs ht hd he
    obtain ⟨-, d', -, hd', hi, -⟩ := hnumber i s hs
    obtain ⟨-, e', -, he', hj, -⟩ := hnumber j t ht
    obtain rfl := Option.some.inj (hd.symm.trans hd')
    obtain rfl := Option.some.inj (he.symm.trans he')
    rw [← UInt16.toNat_inj, hi, hj]
    omega
  · intro hbit i s addr w hs
    have hplace : q.peerPlace? addr = some (s, .control w) ↔
        i + 1 < 256 ∧ w < 16 ∧ addr.toNat = 16 * (i + 1) + w :=
      Processor.peerPlace?_eq_control_iff_of_nodup hbit (hqpeers ▸ hnodup) (hqpeers ▸ hs)
    refine ⟨hplace, fun hbyte hw haddr => ?_⟩
    obtain ⟨-, e, -, he, -⟩ := hnumber i s hs
    refine Machine.reachesControl_of_peerPlace? (hplace.mpr ⟨hbyte, hw, haddr⟩) (d := e) ?_
    rw [machine, get?_vacate, if_neg (hdevices s (List.mem_of_getElem? hs)).1.symm, he]

/-- A controller sets bit 0 of the control register between two blocks that are put on the bank of a
processor. Address 23 is then that of control word 3 of the second. -/
theorem numbered_acts_two :
    let b := ofList [.processor (.new 1 1 0), .block (.new 2 1), .block (.new 3 1)]
    let events : List Event := [.attach 0 1, .ask 4 (.write 0 (.control 0xC) 1), .attach 0 2]
    ∃ q e, (b.acts events).get? 0 = some (.processor q) ∧ q.peers = [1, 2] ∧
      (b.acts events).get? 2 = some e ∧ e.control.bankIndex = 2 ∧ e.control.typeByte = 2 ∧
      ((b.acts events).machine 0 q).ReachesControl 0x23 2 3 := by
  intro b events
  have hmasks : ∀ k d, b.get? k = some d → d.control.masks = d.kindMasks := by
    have hall : ∀ d ∈ [Device.processor (.new 1 1 0), .block (.new 2 1), .block (.new 3 1)],
        d.control.masks = d.kindMasks := by
      decide +kernel
    intro k d hd
    rw [get?_ofList] at hd
    exact hall d (List.mem_of_getElem? hd)
  have hdevices : ∀ s ∈ attached 0 events, s ≠ 0 ∧ ∃ d, b.get? s = some d := by
    rintro s (_ | ⟨_, _ | ⟨_, ⟨⟩⟩⟩)
    · exact ⟨by decide, _, rfl⟩
    · exact ⟨by decide, _, rfl⟩
  have honly : ∀ s ∈ attached 0 events, ∀ other, .attach other s ∈ events → other = 0 := by
    intro s _ other hmem
    simp only [events, List.mem_cons, Event.attach.injEq, reduceCtorEq, false_or, List.not_mem_nil,
      or_false] at hmem
    omega
  have hprocessor : b.get? 0 = some (.processor (.new 1 1 0)) := rfl
  obtain ⟨q, hq, hpeers, -, hnumber, -, haddress⟩ :=
    numbered_acts hmasks hprocessor rfl hdevices (by decide) honly
  have hbit : ((b.acts events).get? 0).map (fun
      | .processor q => q.regs.control
      | .block _ => 0) = some 1 := by
    decide +kernel
  rw [hq] at hbit
  have hcontrol : q.regs.control = 1 := Option.some.inj hbit
  obtain ⟨d, e, hd, he, -, hindex, htype⟩ := hnumber 1 2 rfl
  obtain rfl := Option.some.inj hd
  have hreaches := (haddress (by rw [hcontrol]; rfl) 1 2 0x23 3 rfl).2
  exact ⟨q, e, hq, hpeers, he, hindex.mpr (by decide), htype, hreaches (by decide) (by decide) rfl⟩

/-- A processor, and so many blocks of memory. -/
def crowd (blocks : Nat) : Bank :=
  ofList (.processor (.new 1 1 0) :: List.replicate blocks (.block (.new 2 1)))

/-- So many blocks are put on the bank of the processor. -/
def gather (blocks : Nat) : List Event := (List.range blocks).map fun i => .attach 0 (i + 1)

theorem attached_gather (blocks : Nat) :
    attached 0 (gather blocks) = (List.range blocks).map (· + 1) := by
  rw [attached, gather, List.filterMap_map, ← List.filterMap_eq_map]
  rfl

/-- **The 256th device has not the number that was told.** In its control block there is zero, the
number of no device. -/
theorem exists_number_lost :
    ∃ p e, ((crowd 256).acts (gather 255)).get? 0 = some (.processor p) ∧ nextIndex p = 256 ∧
      ((crowd 256).acts (gather 255 ++ [.attach 0 256])).get? 256 = some e ∧
      e.control.bankIndex = 0 := by
  have hprocessor : (crowd 256).get? 0 = some (.processor (.new 1 1 0)) := by
    rw [crowd, get?_ofList]
    rfl
  obtain ⟨p, hp, hpeers⟩ := exists_peers_acts hprocessor (gather 255)
  have hnext : nextIndex p = 256 := by
    rw [nextIndex, hpeers, attached_gather, List.length_append, List.length_map, List.length_range]
    rfl
  have hblock : (crowd 256).get? 256 = some (.block (.new 2 1)) := by
    rw [crowd, get?_ofList, List.getElem?_cons_succ, List.getElem?_replicate]
    rfl
  have hfront (other : Nat) : .attach other 256 ∉ gather 255 := by
    simp [gather]
  obtain ⟨e, he, hindex, -⟩ := exists_get?_acts hp hblock (by decide) rfl hfront
    fun _ => List.not_mem_nil
  refine ⟨p, e, hp, hnext, he, UInt16.toNat_inj.mp ?_⟩
  rw [hindex, hnext]
  rfl

end Bank

end WordMachine
