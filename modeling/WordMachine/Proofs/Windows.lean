import WordMachine.Proofs.Masks
import WordMachine.Proofs.RunStates

/-!
# The window of a controller

A controller sees sixteen pages of a device that it holds, from the accessed page on. Which page is
the first one is a control word, to which the controller may write any word at all. The page that an
address falls in is the sum of that word and of a number below sixteen (`ControlBlock.windowPage`).

So a window may run past two ends. One that runs past the pages of the device shows zeros there and
takes no writes. One that runs past the last page number there is does not show anything: the sum is
not a word, the bank fails, and no processor on it takes another step. No address leads to a page
below the window in either case.

## Main results

* `ControlBlock.resolve_of_lt`, `ControlBlock.resolve_of_le`: the page that is shown
* `Bank.run_of_hasFailed`: nothing runs on a bank that has failed
* `Bank.window_of_isHeldBy`: what a controller reads and writes through its window, and where it
  fails
* `Bank.exists_window_overflow`: a controller whose window shows no second page
-/

namespace WordMachine

namespace ControlBlock

/-- A device that somebody else holds. -/
structure IsHeldBy (c : ControlBlock) (controller : Word) : Prop where
  ne_zero : controller ≠ 0
  ne_id : controller ≠ c.id
  bound_eq : c.bound = controller

/-- The page of the controller's window that an address falls in, counted on from the accessed page.
-/
def windowPage (c : ControlBlock) (addr : Word) : Nat :=
  c.accessedPage.toNat + Word.page addr % 16

variable {c : ControlBlock} {controller addr : Word}

theorem IsHeldBy.isPrivileged (h : c.IsHeldBy controller) : c.isPrivileged controller = true := by
  simp [ControlBlock.isPrivileged, h.ne_zero, h.bound_eq]

theorem toNat_windowDigit (addr : Word) :
    (addr >>> 8 &&& 0x000F).toNat = Word.page addr % 16 :=
  Word.toNat_and_mask (addr >>> 8) (by decide : 4 < 16)

/-- **The page that is shown** is that of the window, if it has a number. -/
theorem resolve_of_lt (h : c.IsHeldBy controller) (hpage : c.windowPage addr < 65536) :
    c.resolve controller addr = .found (c.windowPage addr) (Word.offset addr) := by
  have hdigit := toNat_windowDigit addr
  have hsum : (c.accessedPage + (addr >>> 8 &&& 0x000F)).toNat = c.windowPage addr := by
    rw [UInt16.toNat_add, hdigit]
    exact Nat.mod_eq_of_lt hpage
  have hchecked := Word.checkedAdd_eq_some_iff.mpr (hsum.trans (congrArg _ hdigit.symm))
  rw [resolve, if_neg h.ne_id, if_pos h.isPrivileged, hchecked]
  dsimp only
  rw [hsum]

/-- No page is shown that has no number. -/
theorem resolve_of_le (h : c.IsHeldBy controller) (hpage : 65536 ≤ c.windowPage addr) :
    c.resolve controller addr = .overflow := by
  have hdigit := toNat_windowDigit addr
  have hchecked : Word.checkedAdd c.accessedPage (addr >>> 8 &&& 0x000F) = none := by
    rw [Word.checkedAdd_eq_none_iff, hdigit]
    exact hpage
  rw [resolve, if_neg h.ne_id, if_pos h.isPrivileged, hchecked]

/-- Whoever is heeded may let the window begin at any page, and is the controller from then on. -/
theorem isHeldBy_write (h : c.Heeds controller)
    (hmask : AccessMasks.allows c.masks.privilegedWrite 3 = true) (w : Word) :
    (c.write controller 3 w).1.IsHeldBy controller ∧
      (c.write controller 3 w).1.accessedPage = w := by
  have hid : (c.claim controller).id = c.id := by
    rw [claim]
    split
    · exact id_set (by decide) c controller
    · rfl
  rw [write_of_heeds h (by decide), if_pos (.inr hmask)]
  refine ⟨⟨h.2.1, ?_, ?_⟩, ?_⟩
  · rw [id_set (by decide), hid]
    exact h.1
  · rw [bound_set, if_neg (by decide), bound_claim h]
  · rw [accessedPage, get_set, if_pos rfl]

end ControlBlock

namespace Memory

/-- Beyond its pages a memory has nothing to write to. -/
theorem write_of_le {m : Memory} {page : Nat} (h : m.pages ≤ page) (offset : Nat) (w : Word) :
    m.write page offset w = m :=
  write_of_not_isWritable (fun hw => Nat.not_lt.mpr h (isWritable_iff.mp hw).1.1) w

theorem read_of_le {m : Memory} {page : Nat} (h : m.pages ≤ page) (offset : Nat) :
    m.read page offset = none := by
  rw [read, Array.getElem?_eq_none_iff.mpr h, Option.bind_none]

end Memory

/-- A change that changes nothing in its memory changes nothing in a device. -/
theorem Device.mapMemory_eq_self {f : Memory → Memory} {d : Device} (h : f d.memory = d.memory) :
    d.mapMemory f = d := by
  cases d with
  | processor p => exact congrArg (fun memory => processor { p with memory := memory }) h
  | block d => exact congrArg (fun memory => block { d with memory := memory }) h

namespace Bank

variable {b : Bank} {slot : Nat} {d : Device} {controller : Word}

/-- A device that is held by somebody else answers its controller itself. -/
theorem reach_of_isHeldBy (hd : b.get? slot = some d) (h : d.control.IsHeldBy controller)
    (place : Place) : b.reach controller slot place = some (slot, place) := by
  refine reach_of_ne (Nat.zero_lt_of_lt (lt_size_of_get? hd)) (fun p hp hid => ?_) place
  obtain rfl := Option.some.inj (hd.symm.trans hp)
  exact h.ne_id hid.symm

/-! ### Banks that have failed -/

/-- No processor goes on once the bank has failed. -/
theorem step_of_hasFailed (h : b.hasFailed = true) (k : Nat) : b.step k = b := by
  rw [step]
  split
  · next p hp =>
    have hstopped : (b.machine k p).isRunning = false :=
      Bool.eq_false_iff.mpr fun hrunning => by
        have hnot : b.hasFailed = false := (Machine.isRunning_iff.mp hrunning).2
        rw [h] at hnot
        cases hnot
    change (b.machine k p).step.bank.put k (.processor (b.machine k p).step.cpu) = b
    rw [Machine.step_of_not_running hstopped]
    exact put_vacate hp
  · rfl

theorem run_of_hasFailed (h : b.hasFailed = true) (k n : Nat) : b.run k n = b := by
  induction n with
  | zero => exact run_zero b k
  | succ n ih => rw [run_succ, step_of_hasFailed h, ih]

/-! ### Windows -/

section Held

variable (hd : b.get? slot = some d) (h : d.control.IsHeldBy controller) (addr w : Word)

include hd h

/-- To read through a window changes nothing. -/
theorem read_memory_of_lt (hpage : d.control.windowPage addr < 65536) :
    b.read controller slot (.memory addr) =
      ((d.memory.read (d.control.windowPage addr) (Word.offset addr)).getD 0, b) := by
  have hresolve := ControlBlock.resolve_of_lt h hpage
  have hnot : d.overflows controller (.memory addr) = false :=
    decide_eq_false (hresolve ▸ nofun)
  rw [read_of_found (reach_of_isHeldBy hd h _) hd, hnot, failIf_false, Device.read,
    Device.readMemory, hresolve, put_self hd]

theorem write_memory_of_lt (hpage : d.control.windowPage addr < 65536) :
    b.write controller slot (.memory addr) w = b.put slot (d.mapMemory fun memory =>
      memory.write (d.control.windowPage addr) (Word.offset addr) w) := by
  have hresolve := ControlBlock.resolve_of_lt h hpage
  have hnot : d.overflows controller (.memory addr) = false :=
    decide_eq_false (hresolve ▸ nofun)
  rw [write_of_found (reach_of_isHeldBy hd h _) hd, hnot, failIf_false, Device.write,
    Device.writeMemory, hresolve]

/-- To read where no page has a number makes the bank fail, and is answered by nothing. -/
theorem read_memory_of_le (hpage : 65536 ≤ d.control.windowPage addr) :
    b.read controller slot (.memory addr) = (0, b.failIf true) := by
  have hresolve := ControlBlock.resolve_of_le h hpage
  have hoverflows : d.overflows controller (.memory addr) = true := decide_eq_true hresolve
  rw [read_of_found (reach_of_isHeldBy hd h _) hd, hoverflows, Device.read, Device.readMemory,
    hresolve, put_self hd]

theorem write_memory_of_le (hpage : 65536 ≤ d.control.windowPage addr) :
    b.write controller slot (.memory addr) w = b.failIf true := by
  have hresolve := ControlBlock.resolve_of_le h hpage
  have hoverflows : d.overflows controller (.memory addr) = true := decide_eq_true hresolve
  rw [write_of_found (reach_of_isHeldBy hd h _) hd, hoverflows, Device.write, Device.writeMemory,
    hresolve, put_self hd]

end Held

/-- **What a controller reads and writes through its window.** An address falls in a page of the
window, at the place that its low byte says. If the page has a number, then the word there is what
is read, and nothing but this word, of this device, is written; and if the device has no such page,
zero is read and nothing is written. If the page has no number, then the bank fails: nothing is
written, what is read means nothing, and nothing runs from then on. Whether it has or not, no word
below the window is touched. -/
theorem window_of_isHeldBy (hd : b.get? slot = some d) (h : d.control.IsHeldBy controller)
    (addr : Word) :
    let page := d.control.windowPage addr
    (page < 65536 →
      d.control.resolve controller addr = .found page (Word.offset addr) ∧
      b.read controller slot (.memory addr) =
        ((d.memory.read page (Word.offset addr)).getD 0, b) ∧
      (∀ w, ∃ e, b.write controller slot (.memory addr) w = b.put slot e ∧
        e.control = d.control ∧
        ∀ p o, e.memory.read p o =
          if d.memory.isWritable page (Word.offset addr) ∧ p = page ∧ o = Word.offset addr then
            some w
          else d.memory.read p o) ∧
      (d.memory.pages ≤ page → (b.read controller slot (.memory addr)).1 = 0 ∧
        ∀ w, b.write controller slot (.memory addr) w = b)) ∧
    (65536 ≤ page →
      d.control.resolve controller addr = .overflow ∧
      b.read controller slot (.memory addr) = (0, b.failIf true) ∧
      (∀ w, b.write controller slot (.memory addr) w = b.failIf true) ∧
      ∀ k n, (b.failIf true).run k n = b.failIf true) ∧
    (∀ w k, k ≠ slot → (b.write controller slot (.memory addr) w).get? k = b.get? k) ∧
    ∀ w, ∃ e, (b.write controller slot (.memory addr) w).get? slot = some e ∧
      ∀ p o, p < d.control.accessedPage.toNat → e.memory.read p o = d.memory.read p o := by
  intro page
  have hreadWrite (w : Word) (p o : Nat) :
      (d.mapMemory fun memory => memory.write page (Word.offset addr) w).memory.read p o =
        if d.memory.isWritable page (Word.offset addr) ∧ p = page ∧ o = Word.offset addr then
          some w
        else d.memory.read p o := by
    rw [Device.memory_mapMemory, Memory.read_write]
  refine ⟨fun hpage => ?_, fun hpage => ?_, fun w k hk => ?_, fun w => ?_⟩
  · have hread := read_memory_of_lt hd h addr hpage
    refine ⟨ControlBlock.resolve_of_lt h hpage, hread, fun w => ?_, fun hpages => ⟨?_, fun w => ?_⟩⟩
    · exact ⟨_, write_memory_of_lt hd h addr w hpage, Device.control_mapMemory .., hreadWrite w⟩
    · rw [hread, Memory.read_of_le hpages]
      rfl
    · rw [write_memory_of_lt hd h addr w hpage,
        Device.mapMemory_eq_self (Memory.write_of_le hpages ..), put_self hd]
  · exact ⟨ControlBlock.resolve_of_le h hpage, read_memory_of_le hd h addr hpage,
      fun w => write_memory_of_le hd h addr w hpage,
      run_of_hasFailed (Bool.or_true _)⟩
  · rcases Nat.lt_or_ge page 65536 with hpage | hpage
    · rw [write_memory_of_lt hd h addr w hpage, get?_put, if_neg fun hand => hk hand.1.symm]
    · rw [write_memory_of_le hd h addr w hpage, get?_failIf]
  · rcases Nat.lt_or_ge page 65536 with hpage | hpage
    · refine ⟨_, ?_, fun p o hp => (hreadWrite w p o).trans (if_neg fun hand => ?_)⟩
      · rw [write_memory_of_lt hd h addr w hpage, get?_put, if_pos ⟨rfl, lt_size_of_get? hd⟩]
      · have hle : d.control.accessedPage.toNat ≤ page := Nat.le_add_right _ _
        omega
    · refine ⟨d, ?_, fun p o _ => rfl⟩
      rw [write_memory_of_le hd h addr w hpage, get?_failIf, hd]

/-- A block of four pages that a controller holds, with a window that begins at a page. -/
def windowed (first : Word) : Bank :=
  (ofList [.block (.new 2 4)]).act (.ask 1 (.write 0 (.control 3) first))

theorem exists_windowed (first : Word) :
    ∃ d, (windowed first).get? 0 = some d ∧ d.control.IsHeldBy 1 ∧
      d.control.accessedPage = first ∧ d.memory = .blank 4 0 := by
  have hheeds : (BlockMemory.new 2 4).control.Heeds 1 := by decide
  obtain ⟨hheld, hfirst⟩ := ControlBlock.isHeldBy_write hheeds (by decide) first
  exact ⟨(Device.block (.new 2 4)).writeControl 1 3 first, rfl, hheld, hfirst, rfl⟩

/-- A window that begins at page 2 has nothing behind the second of its pages. -/
theorem window_of_isHeldBy_two :
    ∃ d, (windowed 2).get? 0 = some d ∧ d.control.IsHeldBy 1 ∧
      d.control.resolve 1 0x1105 = .found 3 5 ∧
      (windowed 2).read 1 0 (.memory 0x2205) = (0, windowed 2) ∧
      ∀ w, (windowed 2).write 1 0 (.memory 0x2205) w = windowed 2 := by
  obtain ⟨d, hd, h, hfirst, hmemory⟩ := exists_windowed 2
  have hpage (addr : Word) : d.control.windowPage addr = 2 + Word.page addr % 16 := by
    rw [ControlBlock.windowPage, hfirst]
    rfl
  obtain ⟨hthree, -⟩ := (window_of_isHeldBy hd h 0x1105).1 (by rw [hpage]; decide)
  obtain ⟨-, hread, -, hnothing⟩ := (window_of_isHeldBy hd h 0x2205).1 (by rw [hpage]; decide)
  rw [hpage] at hthree hread hnothing
  have hpages : d.memory.pages = 4 := by rw [hmemory, Memory.pages_blank]
  obtain ⟨hzero, hwrite⟩ := hnothing (by rw [hpages]; decide)
  refine ⟨d, hd, h, hthree, Prod.ext hzero ?_, hwrite⟩
  rw [hread]

/-- **A window that shows no second page.** Page ffff is the first of the window, and there is no
number for the next one. So the bank fails when its controller reads there, where zero should be
read, and so it does when something is to be written, where nothing should happen. -/
theorem exists_window_overflow :
    ∃ d, (windowed 0xFFFF).get? 0 = some d ∧ d.control.IsHeldBy 1 ∧
      d.control.accessedPage = 0xFFFF ∧ d.control.windowPage 0x105 = 65536 ∧
      d.memory.pages = 4 ∧ (windowed 0xFFFF).hasFailed = false ∧
      d.control.resolve 1 0x105 = .overflow ∧
      ((windowed 0xFFFF).read 1 0 (.memory 0x105)).2.hasFailed = true ∧
      ((windowed 0xFFFF).write 1 0 (.memory 0x105) 7).hasFailed = true := by
  obtain ⟨d, hd, h, hfirst, hmemory⟩ := exists_windowed 0xFFFF
  have hpage : d.control.windowPage 0x105 = 65536 := by
    rw [ControlBlock.windowPage, hfirst]
    rfl
  have hle : 65536 ≤ d.control.windowPage 0x105 := Nat.le_of_eq hpage.symm
  refine ⟨d, hd, h, hfirst, hpage, ?_, rfl, ControlBlock.resolve_of_le h hle, ?_, ?_⟩
  · rw [hmemory, Memory.pages_blank]
  · rw [read_memory_of_le hd h _ hle]
    rfl
  · rw [write_memory_of_le hd h _ _ hle]
    rfl

end Bank

end WordMachine
