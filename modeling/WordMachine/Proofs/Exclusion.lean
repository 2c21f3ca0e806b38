import WordMachine.Proofs.Requests

/-!
# Devices that are held

A device that is bound belongs to its controller. The other processors on its bank may go on asking
it for whatever they like, by any way that their addresses lead; nothing they do reaches it, but for
one word: a block brings its number of pages up to date for every reader (`Device.IsLeftAlone`).

Who holds a device changes in two ways only. A free device is taken by the first other processor
that writes to one of its control words behind the id, and the holder of a device gives it away by a
write to word 2.

All this takes a bank whose devices have ids of their own (`Bank.IsShared`). This is what no step
changes, so it holds however the steps of the processors follow each other.

## Main results

* `Device.isLeftAlone_serve`: what a request of anyone but the device and its controller leaves
  alone
* `Bank.IsShared.step`: a step leaves a shared bank shared
* `Bank.IsShared.exclusive`: a device is its controller's
-/

namespace WordMachine

/-- A block that has its number of pages brought up to date. -/
def BlockMemory.refreshed (d : BlockMemory) : BlockMemory :=
  { d with control := d.control.set 6 (UInt16.ofNat d.memory.pages) }

theorem BlockMemory.refreshed_refreshed (d : BlockMemory) :
    d.refreshed.refreshed = d.refreshed := by
  simp [refreshed, ControlBlock.set]

namespace Device

/-- A device of which nothing was changed, but that a block may have brought its number of pages up
to date. -/
def IsLeftAlone (d e : Device) : Prop :=
  e = d ∨ ∃ held, d = .block held ∧ e = .block held.refreshed

namespace IsLeftAlone

variable {d e f : Device}

theorem refl (d : Device) : d.IsLeftAlone d := Or.inl rfl

theorem trans (h : d.IsLeftAlone e) (h' : e.IsLeftAlone f) : d.IsLeftAlone f := by
  rcases h with rfl | ⟨held, rfl, rfl⟩
  · exact h'
  · rcases h' with rfl | ⟨again, heq, rfl⟩
    · exact Or.inr ⟨held, rfl, rfl⟩
    · cases heq
      exact Or.inr ⟨held, rfl, by rw [BlockMemory.refreshed_refreshed]⟩

theorem bound_eq (h : d.IsLeftAlone e) : e.control.bound = d.control.bound := by
  rcases h with rfl | ⟨held, rfl, rfl⟩
  · rfl
  · exact (ControlBlock.bound_set ..).trans (if_neg (by decide))

end IsLeftAlone

/-! ### Requests of others -/

/-- A device of the standard masks that is held by somebody else than a requester. -/
structure IsHeldFrom (d : Device) (requester : Word) : Prop where
  masks_eq : d.control.masks = d.kindMasks
  id_ne : d.id ≠ requester
  bound_ne_zero : d.control.bound ≠ 0
  bound_ne : d.control.bound ≠ requester

variable {d : Device} {requester : Word}

theorem IsHeldFrom.isPrivileged_eq (h : d.IsHeldFrom requester) :
    d.control.isPrivileged requester = false := by
  have hid : d.control.id ≠ requester := h.id_ne
  simp [ControlBlock.isPrivileged, hid.symm, h.bound_ne.symm]

theorem IsHeldFrom.serve (h : d.IsHeldFrom requester) {request : Request}
    (halone : d.IsLeftAlone (d.serve requester request)) :
    (d.serve requester request).IsHeldFrom requester where
  masks_eq := by
    have hpersists := d.persists_serve requester request
    rw [hpersists.masks_eq, hpersists.kindMasks_eq, h.masks_eq]
  id_ne := by
    rw [(d.persists_serve requester request).id_eq]
    exact h.id_ne
  bound_ne_zero := by
    rw [halone.bound_eq]
    exact h.bound_ne_zero
  bound_ne := by
    rw [halone.bound_eq]
    exact h.bound_ne

/-- Nobody but its controller reads the registers of a processor. -/
theorem allows_externalRead {index : Nat} (h : ¬ index % 16 < 7) :
    AccessMasks.allows Processor.masks.externalRead (index % 16) = false := by
  have hall : ∀ i : Fin 16, ¬ i.val < 7 →
      AccessMasks.allows Processor.masks.externalRead i.val = false := by decide
  exact hall ⟨index % 16, Nat.mod_lt _ (by decide)⟩ h

/-- Beside the words that have nothing live behind them, an outsider may read the number of pages of
a block. -/
theorem isLeftAlone_readControl (h : d.IsHeldFrom requester) (index : Nat) :
    d.IsLeftAlone (d.readControl requester index).2 := by
  have hprivileged := h.isPrivileged_eq
  have hmasks := h.masks_eq
  cases d with
  | processor p =>
    left
    change Device.processor (p.readControl requester index).2 = _
    rw [Processor.control_readControl]
    cases hlive : p.live? (index % 16) with
    | none => rw [ControlBlock.read_none]
    | some live =>
      have hindex : ¬ index % 16 < 7 := fun hlt => by
        simp [Processor.live?_eq_none hlt p] at hlive
      have hread : p.control.mayRead requester index = false := by
        change p.control.masks = Processor.masks at hmasks
        change p.control.isPrivileged requester = false at hprivileged
        simp [ControlBlock.mayRead, hprivileged, hmasks, allows_externalRead hindex]
        omega
      rw [ControlBlock.read_some, hread]
      rfl
  | block d =>
    rw [readControl_block]
    cases hlive : d.live? (index % 16) with
    | none =>
      left
      rw [ControlBlock.read_none]
    | some live =>
      obtain ⟨hindex, rfl⟩ := live?_block hlive
      rw [ControlBlock.read_some]
      split
      · right
        refine ⟨d, rfl, ?_⟩
        simp [BlockMemory.refreshed, ControlBlock.set, hindex]
      · exact .refl _

/-- **What a request of anyone but the device and its controller leaves alone.** -/
theorem isLeftAlone_serve (h : d.IsHeldFrom requester) (request : Request) :
    d.IsLeftAlone (d.serve requester request) := by
  have hid : requester ≠ d.control.id := h.id_ne.symm
  have hheeds : ¬ d.control.Heeds requester := fun hheeds =>
    hheeds.2.2.elim h.bound_ne_zero h.bound_ne
  rcases request with ⟨_, _ | index⟩ | ⟨_, addr | index, w⟩
  · exact .refl d
  · exact isLeftAlone_readControl h index
  · change d.IsLeftAlone (d.writeMemory requester addr w)
    rw [writeMemory, ControlBlock.resolve_eq_refused_iff.mpr h.isPrivileged_eq]
    exact .refl d
  · have hwrite := ControlBlock.write_of_not_heeds hid hheeds index w
    left
    cases d with
    | processor p =>
      change Device.processor (p.writeControl requester index w) = _
      rw [Processor.writeControl, show p.control.write requester index w = _ from hwrite]
      rfl
    | block d =>
      change Device.block { d with control := (d.control.write requester index w).1 } = _
      rw [show d.control.write requester index w = _ from hwrite]
      rfl

theorem isLeftAlone_foldl_serve (h : d.IsHeldFrom requester) (requests : List Request) :
    d.IsLeftAlone (requests.foldl (serve requester) d) := by
  induction requests generalizing d with
  | nil => exact .refl d
  | cons request rest ih =>
    have halone := isLeftAlone_serve h request
    exact halone.trans (ih (h.serve halone))

/-! ### How a device changes hands -/

/-- Who holds a device after a requester has written to one of its control words, if that is
somebody else than before. -/
def ChangesHands (d e : Device) (requester : Word) (index : Nat) (w : Word) : Prop :=
  (d.control.bound = 0 ∧ e.control.bound = if index % 16 = 2 then w else requester) ∨
    (d.control.bound = requester ∧ index % 16 = 2 ∧ e.control.bound = w)

/-- Nobody takes hold of a device by reading. -/
theorem bound_readControl (requester : Word) (index : Nat) (d : Device) :
    (d.readControl requester index).2.control.bound = d.control.bound := by
  have hread (c : ControlBlock) {source : Option Word} (h : source.isSome → index % 16 ≠ 2) :
      (c.read requester index source).2.bound = c.bound := by
    cases source with
    | none => rw [ControlBlock.read_none]
    | some live =>
      rw [ControlBlock.read_some]
      split
      · rw [ControlBlock.bound_set, if_neg (h rfl)]
      · rfl
  cases d with
  | processor p =>
    refine hread p.control fun hlive htwo => ?_
    rw [Processor.live?_eq_none (by omega)] at hlive
    cases hlive
  | block d =>
    refine hread d.control fun hlive htwo => ?_
    obtain ⟨live, hlive⟩ := Option.isSome_iff_exists.mp hlive
    have := (live?_block hlive).1
    omega

theorem bound_serve_of_isRead {request : Request} (h : request.isRead = true) (requester : Word)
    (d : Device) : (d.serve requester request).control.bound = d.control.bound := by
  rcases request with ⟨_, _ | index⟩ | _
  · rfl
  · exact bound_readControl requester index d
  · cases h

theorem bound_foldl_serve {requests : List Request}
    (h : ∀ request ∈ requests, request.isRead = true) (requester : Word) (d : Device) :
    (requests.foldl (serve requester) d).control.bound = d.control.bound := by
  induction requests generalizing d with
  | nil => rfl
  | cons request rest ih =>
    rw [List.foldl_cons, ih fun request hmem => h request (List.mem_cons_of_mem _ hmem),
      bound_serve_of_isRead (h request List.mem_cons_self)]

/-- A request by which a device changes hands is a write to a control word. -/
theorem changesHands_of_ne (hid : d.id ≠ requester) {request : Request}
    (h : (d.serve requester request).control.bound ≠ d.control.bound) :
    ∃ index w, request = .write request.slot (.control index) w ∧
      d.ChangesHands (d.serve requester request) requester index w := by
  rcases request with ⟨slot, place⟩ | ⟨slot, addr | index, w⟩
  · exact absurd (bound_serve_of_isRead rfl requester d) h
  · refine absurd ?_ h
    change (d.writeMemory requester addr w).control.bound = _
    rw [writeMemory]
    split
    · rw [control_mapMemory]
    · rfl
  · refine ⟨index, w, rfl, ?_⟩
    have hbound : (d.serve requester (.write slot (.control index) w)).control.bound = _ :=
      (congrArg ControlBlock.bound (control_writeControl requester index w d)).trans
        (ControlBlock.bound_write hid.symm index w)
    rw [hbound] at h
    rw [ChangesHands, hbound]
    split at h
    · next hheeds =>
      rcases hheeds.1.2.2 with hfree | hheld
      · exact Or.inl ⟨hfree, if_pos hheeds⟩
      · split at h
        · next htwo => exact Or.inr ⟨hheld, htwo, (if_pos hheeds).trans (if_pos htwo)⟩
        · exact absurd hheld.symm h
    · exact absurd rfl h

/-- If a device changes hands while requests come in of which the last one alone may write, it is by
that one. -/
theorem changesHands_of_foldl (hid : d.id ≠ requester) {reads : List Request}
    {last : Option Request}
    (hreads : ∀ request ∈ reads, request.isRead = true)
    (h : ((reads ++ last.toList).foldl (serve requester) d).control.bound ≠ d.control.bound) :
    ∃ slot index w, last = some (.write slot (.control index) w) ∧
      d.ChangesHands ((reads ++ last.toList).foldl (serve requester) d) requester index w := by
  have hbound := bound_foldl_serve hreads requester d
  rw [List.foldl_append] at h ⊢
  cases last with
  | none => exact absurd hbound h
  | some request =>
    rw [← hbound] at h
    have hid' : (reads.foldl (serve requester) d).id ≠ requester := by
      rw [(d.persists_foldl_serve requester reads).id_eq]
      exact hid
    obtain ⟨index, w, hrequest, hchanges⟩ := changesHands_of_ne hid' h
    rw [ChangesHands, hbound] at hchanges
    exact ⟨request.slot, index, w, congrArg some hrequest, hchanges⟩

end Device

namespace Machine

/-! ### A processor's own steps -/

/-- A step of its own leaves a processor to whoever holds it. -/
theorem bound_step {m : Machine} (h : m.cpu.control.masks = Processor.masks) :
    m.step.cpu.control.bound = m.cpu.control.bound := by
  rcases m.continues_step with hstep | ⟨-, -, hstep⟩
  · exact hstep.bound_eq h
  · rw [hstep]
    rfl

theorem persists_step (m : Machine) :
    Device.Persists (.processor m.cpu) (.processor m.step.cpu) := by
  rcases m.continues_step with hstep | ⟨-, -, hstep⟩
  · exact ⟨hstep.id_eq, hstep.masks_eq, rfl⟩
  · rw [hstep]
    exact ⟨rfl, rfl, rfl⟩

end Machine

namespace Bank

/-! ### Shared banks -/

/-- A bank of devices of the standard masks, which have ids of their own. -/
structure IsShared (b : Bank) : Prop where
  masks_eq : ∀ {k d}, b.get? k = some d → d.control.masks = d.kindMasks
  id_ne_zero : ∀ {k d}, b.get? k = some d → d.id ≠ 0
  eq_of_id_eq : ∀ {j k d e}, b.get? j = some d → b.get? k = some e → d.id = e.id → j = k

theorem get?_ofList (ds : List Device) (k : Nat) : (ofList ds).get? k = ds[k]? := by
  rw [get?, ofList, List.getElem?_toArray, List.getElem?_map]
  cases ds[k]? <;> rfl

/-- Devices of the standard masks with ids of their own are a shared bank. -/
theorem isShared_ofList {ds : List Device} (hmasks : ∀ d ∈ ds, d.control.masks = d.kindMasks)
    (hzero : 0 ∉ ds.map Device.id) (hids : (ds.map Device.id).Nodup) : (ofList ds).IsShared where
  masks_eq hd := by
    rw [get?_ofList] at hd
    exact hmasks _ (List.mem_of_getElem? hd)
  id_ne_zero hd hid := by
    rw [get?_ofList] at hd
    exact hzero (hid ▸ List.mem_map_of_mem (List.mem_of_getElem? hd))
  eq_of_id_eq {j k d e} hd he hid := by
    rw [get?_ofList] at hd he
    have hj : j < (ds.map Device.id).length := by
      rw [List.length_map]
      exact (List.getElem?_eq_some_iff.mp hd).1
    refine (List.getElem?_inj hj hids).mp ?_
    rw [List.getElem?_map, List.getElem?_map, hd, he]
    exact congrArg some hid

/-- The bank behind steps of the devices in slots, one after another. -/
def steps (b : Bank) (schedule : List Nat) : Bank := schedule.foldl step b

namespace IsShared

variable {b : Bank} {slot k : Nat} {p : Processor} {d : Device}

/-- What one device asks the others for comes to the device that it asks. -/
theorem get?_step (h : b.IsShared) (hp : b.get? slot = some (.processor p)) (hk : slot ≠ k) :
    (b.step slot).get? k = (b.get? k).map fun d =>
      ((b.requests slot).filter fun request => request.slot = k).foldl (Device.serve p.id) d := by
  have hothers (j : Nat) (e : Device) (he : (b.vacate slot).get? j = some e) : e.id ≠ p.id := by
    rw [get?_vacate] at he
    split at he
    · cases he
    · next hj => exact fun hid => hj (h.eq_of_id_eq hp he hid.symm)
  rw [Bank.get?_step hp, if_neg hk, get?_foldl_serve hothers, get?_vacate, if_neg hk]

/-- Every device stays in its slot and goes through a step with what it keeps, and no step puts a
device where there was none. -/
theorem exists_map_step (h : b.IsShared) (slot k : Nat) :
    ∃ f : Device → Device, (b.step slot).get? k = (b.get? k).map f ∧
      ∀ d, b.get? k = some d → d.Persists (f d) := by
  by_cases hcpu : ∃ p, b.get? slot = some (.processor p)
  · obtain ⟨p, hp⟩ := hcpu
    by_cases hk : slot = k
    · subst hk
      refine ⟨fun _ => .processor (b.machine slot p).step.cpu, ?_, fun d hd => ?_⟩
      · rw [Bank.get?_step hp, if_pos rfl, hp]
        rfl
      · cases hp.symm.trans hd
        exact (b.machine slot p).persists_step
    · exact ⟨_, h.get?_step hp hk, fun d _ => d.persists_foldl_serve _ _⟩
  · rw [step_of_not_processor fun p hp => hcpu ⟨p, hp⟩]
    exact ⟨fun d => d, Option.map_id'.symm, fun d _ => .refl d⟩

theorem exists_get?_step (h : b.IsShared) (slot : Nat) (hd : b.get? k = some d) :
    ∃ e, (b.step slot).get? k = some e ∧ d.Persists e := by
  obtain ⟨f, hf, hpersists⟩ := h.exists_map_step slot k
  exact ⟨f d, by rw [hf, hd]; rfl, hpersists d hd⟩

theorem exists_of_get?_step (h : b.IsShared) {slot : Nat} {e : Device}
    (he : (b.step slot).get? k = some e) : ∃ d, b.get? k = some d ∧ d.Persists e := by
  obtain ⟨f, hf, hpersists⟩ := h.exists_map_step slot k
  rw [hf] at he
  obtain ⟨d, hd, rfl⟩ := Option.map_eq_some_iff.mp he
  exact ⟨d, hd, hpersists d hd⟩

/-- **A step leaves a shared bank shared.** -/
theorem step (h : b.IsShared) (slot : Nat) : (b.step slot).IsShared where
  masks_eq he := by
    obtain ⟨d, hd, hpersists⟩ := h.exists_of_get?_step he
    rw [hpersists.masks_eq, hpersists.kindMasks_eq, h.masks_eq hd]
  id_ne_zero he := by
    obtain ⟨d, hd, hpersists⟩ := h.exists_of_get?_step he
    rw [hpersists.id_eq]
    exact h.id_ne_zero hd
  eq_of_id_eq he he' hid := by
    obtain ⟨d, hd, hpersists⟩ := h.exists_of_get?_step he
    obtain ⟨d', hd', hpersists'⟩ := h.exists_of_get?_step he'
    rw [hpersists.id_eq, hpersists'.id_eq] at hid
    exact h.eq_of_id_eq hd hd' hid

theorem steps (h : b.IsShared) (schedule : List Nat) : (b.steps schedule).IsShared := by
  induction schedule generalizing b with
  | nil => exact h
  | cons slot rest ih => exact ih (h.step slot)

/-! ### Exclusive control -/

/-- A step of a processor leaves alone what is held by another. -/
theorem isLeftAlone_step (h : b.IsShared) (hp : b.get? slot = some (.processor p)) (hk : slot ≠ k)
    (hd : b.get? k = some d) (hbound : d.control.bound ≠ 0) (hholder : d.control.bound ≠ p.id) :
    ∃ e, (b.step slot).get? k = some e ∧ d.IsLeftAlone e := by
  rw [h.get?_step hp hk, hd]
  have hid : d.id ≠ p.id := fun heq => hk (h.eq_of_id_eq hp hd heq.symm)
  exact ⟨_, rfl, Device.isLeftAlone_foldl_serve ⟨h.masks_eq hd, hid, hbound, hholder⟩ _⟩

/-- A device changes hands by a request alone, of another processor, to write to a control word. -/
theorem changesHands_step (h : b.IsShared) {e : Device} (hd : b.get? k = some d)
    (he : (b.step slot).get? k = some e) (hbound : e.control.bound ≠ d.control.bound) :
    ∃ p index w, b.get? slot = some (.processor p) ∧ slot ≠ k ∧
      .write k (.control index) w ∈ b.requests slot ∧ d.ChangesHands e p.id index w := by
  by_cases hcpu : ∃ p, b.get? slot = some (.processor p)
  · obtain ⟨p, hp⟩ := hcpu
    have hk : slot ≠ k := fun hk => by
      subst hk
      cases hp.symm.trans hd
      rw [Bank.get?_step hp, if_pos rfl] at he
      cases he
      exact hbound (Machine.bound_step (m := b.machine slot p) (h.masks_eq hd))
    have hid : d.id ≠ p.id := fun heq => hk (h.eq_of_id_eq hp hd heq.symm)
    rw [h.get?_step hp hk, hd] at he
    cases he
    obtain ⟨reads, last, hrequests, hreads⟩ := (b.machine slot p).requests_eq
    have hasked : b.requests slot = reads ++ last.toList := by rw [requests, hp, ← hrequests]
    rw [hasked, List.filter_append, ← Option.toList_filter] at hbound ⊢
    obtain ⟨_, index, w, hlast, hchanges⟩ := Device.changesHands_of_foldl hid
      (fun request hmem => hreads request (List.mem_filter.mp hmem).1) hbound
    obtain ⟨rfl, hslot⟩ := Option.filter_eq_some_iff.mp hlast
    cases of_decide_eq_true hslot
    exact ⟨p, index, w, hp, hk, List.mem_append_right _ List.mem_cons_self, hchanges⟩
  · rw [step_of_not_processor fun p hp => hcpu ⟨p, hp⟩, hd] at he
    cases he
    exact absurd rfl hbound

/-- **Exclusive control.** Let the processors of a shared bank take steps in any order. Whatever
device is then bound is left alone by the next step, unless it is a step of its own or of its
controller. If the next step changes who holds a device, it is by a write of the processor to one of
the control words, either of a device that was free or, to word 2, of one that the processor held.
-/
theorem exclusive (h : b.IsShared) (schedule : List Nat) (slot : Nat)
    (hd : (b.steps schedule).get? k = some d) :
    ∃ e, ((b.steps schedule).step slot).get? k = some e ∧
      (∀ p, (b.steps schedule).get? slot = some (.processor p) → slot ≠ k → d.control.bound ≠ 0 →
        d.control.bound ≠ p.id → d.IsLeftAlone e) ∧
      (e.control.bound ≠ d.control.bound →
        ∃ p index w, (b.steps schedule).get? slot = some (.processor p) ∧ slot ≠ k ∧
          .write k (.control index) w ∈ (b.steps schedule).requests slot ∧
          d.ChangesHands e p.id index w) := by
  have hshared := h.steps schedule
  obtain ⟨e, he, -⟩ := hshared.exists_get?_step slot hd
  refine ⟨e, he, fun p hp hk hbound hholder => ?_, hshared.changesHands_step hd he⟩
  obtain ⟨e', he', halone⟩ := hshared.isLeftAlone_step hp hk hd hbound hholder
  cases he.symm.trans he'
  exact halone

/-- A processor that is about to write to word 3 of the device in slot 2. -/
def claimant (id : Word) : Processor :=
  { Processor.new id 1 0 with
    memory := (Memory.blank 1 0).writeAt 0 0x6601
    regs := { r1 := 0x0013, control := 1 }
    peers := [2] }

/-- Of two processors that write to a free block, the one that comes first keeps the other out. -/
theorem exclusive_claimants :
    let b := Bank.ofList [.processor (claimant 1), .processor (claimant 2), .block (.new 3 1)]
    b.IsShared ∧
      ∃ d e, (b.steps [0]).get? 2 = some d ∧ d.control.bound = 1 ∧
        ((b.steps [0]).step 1).get? 2 = some e ∧ d.IsLeftAlone e := by
  intro b
  have hb : b.IsShared :=
    isShared_ofList (by decide +kernel) (by decide +kernel) (by decide +kernel)
  have hheld : ((b.steps [0]).get? 2).map (·.control.bound) = some 1 := by decide +kernel
  have hfirst : b.get? 0 = some (.processor (claimant 1)) := get?_ofList ..
  have hasked : (b.requests 0).filter (fun request => request.slot = 1) = [] := by decide +kernel
  have hsecond : (b.steps [0]).get? 1 = some (.processor (claimant 2)) := by
    refine (hb.get?_step hfirst (by decide)).trans ?_
    rw [hasked, get?_ofList]
    rfl
  obtain ⟨d, hd, hbound⟩ := Option.map_eq_some_iff.mp hheld
  obtain ⟨e, he, halone, -⟩ := hb.exclusive [0] 1 hd
  refine ⟨hb, d, e, hd, hbound, he, halone _ hsecond (by decide) ?_ ?_⟩
  · rw [hbound]
    decide
  · rw [hbound]
    decide

end IsShared

end Bank

end WordMachine
