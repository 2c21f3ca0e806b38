import Mathlib.Data.List.Basic
import Mathlib.Data.List.Induction
import WordMachine.Proofs.Execution
import WordMachine.Proofs.Steps

/-!
# Stacks

A register is the pointer of a stack that grows downward. A push moves it down and stores below, a
pop takes the word that it points at and moves it up again. This file is about any number of pushes
and pops in a row, through one register, of which every pop takes back what a push has put there.

Pushes and pops are opening and closing brackets, and the sequences in question are the balanced
ones (`Inst.IsBalanced`): the stack is never lower than at the beginning, and at the end it is as
high as then. How high it stands is counted in words (`Inst.height`), without a look at the machine.

## The invariant

On the way only two things have to be known (`Machine.Stands`). The pointer is as many words below
its first place as the stack is high, and memory is as it was, but for the words between the first
place and the deepest. This says nothing about what is on the stack, and still it is enough to know
what a pop delivers. Between a push and the pop that takes its word back the sequence is balanced in
itself. So the invariant holds of that part alone, counted from the pointer behind the push, and the
pushed word is not among those that it gives away. It could only be reached around all addresses,
which is why a stack must not be more than 65536 words high.

## Main results

* `Machine.exec_push`, `Machine.exec_pop`: one push and one pop
* `Machine.Stands.push`, `Machine.Stands.pop`, `Machine.stands_execAll`: the invariant, for one
  instruction and for a sequence
* `Inst.exists_endsOnTop`: every pop has its push
* `Machine.destinationValue_of_match`: a pop delivers what its push has read
* `Machine.stack_unwinds`: a balanced sequence unwinds
-/

namespace WordMachine

/-! ### Pushes, pops and balanced sequences -/

namespace Inst

variable {i push pop : Inst} {r : Reg} {is js : List Inst} {n : Nat}

/-- A copy onto the stack of a register, whatever its source, that is always taken. -/
structure IsPushOnto (i : Inst) (r : Reg) : Prop where
  opcode_eq : i.opcode = .copy
  effect_eq : i.effect = .always
  dst_eq : i.dst = .mem r
  dstImm_eq : i.dstImm = 0
  push_eq : i.push = true

/-- A copy from the stack of a register, into the program counter or another general register, that
is always taken. -/
structure IsPopFrom (i : Inst) (r : Reg) : Prop where
  opcode_eq : i.opcode = .copy
  effect_eq : i.effect = .always
  src_eq : i.src = .mem r
  srcImm_eq : i.srcImm = 0
  push_eq : i.push = true
  dst_eq : i.dst = .pc ∨ ∃ s, s ≠ r ∧ i.dst = .reg s

theorem IsPushOnto.isPop_eq (h : i.IsPushOnto r) : i.isPop = false := by
  simp [Instruction.isPop, h.dst_eq, Destination.isMem]

theorem IsPopFrom.isPop_eq (h : i.IsPopFrom r) : i.isPop = true := by
  rcases h.dst_eq with hdst | ⟨s, -, hdst⟩ <;>
    simp [Instruction.isPop, h.push_eq, h.src_eq, hdst, Source.isMem, Destination.isMem]

/-- By how many words a stack is higher behind a push or a pop. -/
def rise (i : Inst) : Int := if i.isPop then -1 else 1

theorem rise_of_isPop (h : i.isPop = true) : i.rise = -1 := if_pos h

theorem rise_of_not_isPop (h : i.isPop = false) : i.rise = 1 := by
  rw [rise, h]
  rfl

/-- By how many words a stack is higher behind pushes and pops. -/
def height : List Inst → Int
  | [] => 0
  | i :: is => i.rise + height is

/-- The greatest height that a stack comes to by pushes and pops, counted from where it starts. -/
def depth : List Inst → Nat
  | [] => 0
  | i :: is => (i.rise + depth is).toNat

/-- Pushes and pops that take the stack back to where it was, and never below. -/
structure IsBalanced (is : List Inst) : Prop where
  height_eq : height is = 0
  nonneg : ∀ before, before <+: is → 0 ≤ height before

@[simp] theorem height_nil : height [] = 0 := rfl

@[simp] theorem height_cons (i : Inst) (is : List Inst) :
    height (i :: is) = i.rise + height is := rfl

@[simp] theorem height_append (is js : List Inst) : height (is ++ js) = height is + height js := by
  induction is with
  | nil => exact (Int.zero_add _).symm
  | cons i is ih => rw [List.cons_append, height_cons, height_cons, ih, Int.add_assoc]

/-- The depth of a sequence is the least number that bounds its heights. -/
theorem depth_le_iff {n : Int} :
    (depth is : Int) ≤ n ↔ ∀ before, before <+: is → height before ≤ n := by
  induction is generalizing n with
  | nil => simp [depth]
  | cons i is ih =>
    have hcons : ((depth (i :: is) : Nat) : Int) ≤ n ↔ 0 ≤ n ∧ (depth is : Int) ≤ n - i.rise := by
      rw [depth]
      omega
    rw [hcons, ih]
    constructor
    · rintro ⟨hzero, hrest⟩ before hbefore
      rcases List.prefix_cons_iff.mp hbefore with rfl | ⟨tail, rfl, htail⟩
      · exact hzero
      · have hle := hrest tail htail
        rw [height_cons]
        omega
    · intro h
      refine ⟨h [] List.nil_prefix, fun before hbefore => ?_⟩
      have hle := h (i :: before) (List.prefix_cons_iff.mpr (Or.inr ⟨before, rfl, hbefore⟩))
      rw [height_cons] at hle
      omega

theorem height_le_depth {before : List Inst} (h : before <+: is) : height before ≤ depth is :=
  depth_le_iff.mp (Int.le_refl _) before h

theorem depth_le_of_prefix {before : List Inst} (h : before <+: is) : depth before ≤ depth is :=
  Int.ofNat_le.mp (depth_le_iff.mpr fun _ hfirst => height_le_depth (hfirst.trans h))

/-- A prefix of two lists in a row ends in one of them. -/
theorem prefix_append_cases {before : List Inst} (h : before <+: is ++ js) :
    before <+: is ∨ ∃ rest, before = is ++ rest ∧ rest <+: js := by
  rcases List.prefix_or_prefix_of_prefix h (List.prefix_append is js) with hle | ⟨rest, rfl⟩
  · exact Or.inl hle
  · exact Or.inr ⟨rest, rfl, (List.prefix_append_right_inj is).mp h⟩

namespace IsBalanced

theorem nil : IsBalanced [] where
  height_eq := rfl
  nonneg before h := by
    rw [List.prefix_nil.mp h]
    exact Int.le_refl _

theorem append (h : IsBalanced is) (h' : IsBalanced js) : IsBalanced (is ++ js) where
  height_eq := by rw [height_append, h.height_eq, h'.height_eq, Int.add_zero]
  nonneg before hbefore := by
    rcases prefix_append_cases hbefore with hfirst | ⟨rest, rfl, hrest⟩
    · exact h.nonneg before hfirst
    · rw [height_append, h.height_eq, Int.zero_add]
      exact h'.nonneg rest hrest

/-- A push in front of a balanced sequence, and a pop behind it. -/
theorem enclose (h : IsBalanced is) (hpush : push.isPop = false) (hpop : pop.isPop = true) :
    IsBalanced (push :: (is ++ [pop])) where
  height_eq := by simp [rise_of_not_isPop hpush, rise_of_isPop hpop, h.height_eq]
  nonneg before hbefore := by
    rcases List.prefix_cons_iff.mp hbefore with rfl | ⟨inner, rfl, hinner⟩
    · exact Int.le_refl _
    · rcases List.prefix_concat_iff.mp hinner with rfl | hinner
      · simp [rise_of_not_isPop hpush, rise_of_isPop hpop, h.height_eq]
      · have hnonneg := h.nonneg inner hinner
        rw [height_cons, rise_of_not_isPop hpush]
        omega

end IsBalanced

/-- A sequence ends with the word of one of its pushes on top of the stack, for whatever comes
behind that push is balanced. Another pop would take it back. -/
def EndsOnTop (before outer : List Inst) (push : Inst) : Prop :=
  ∃ inner, before = outer ++ push :: inner ∧ push.isPop = false ∧ IsBalanced inner

/-- **Every pop has its push.** Where a stack is higher than at first, and was never lower, there is
a last push of which the word has not been taken back. -/
theorem exists_endsOnTop {before : List Inst}
    (hlow : ∀ first, first <+: before → 0 ≤ height first) (hpos : 0 < height before) :
    ∃ outer push, EndsOnTop before outer push := by
  induction hlen : before.length using Nat.strongRecOn generalizing before with
  | ind n ih =>
  subst hlen
  rcases before.eq_nil_or_concat' with rfl | ⟨init, last, rfl⟩
  · exact absurd hpos (Int.lt_irrefl 0)
  · have hinit : ∀ first, first <+: init → 0 ≤ height first := fun first h =>
      hlow first (h.trans (List.prefix_append init [last]))
    cases hlast : last.isPop with
    | false => exact ⟨init, last, [], rfl, hlast, .nil⟩
    | true =>
      -- The last pop takes back the word of a push of its own, before which there is another.
      have hheight : height (init ++ [last]) = height init - 1 := by
        simp [rise_of_isPop hlast, Int.sub_eq_add_neg]
      obtain ⟨outer, push, inner, rfl, hpush, hinner⟩ :=
        ih init.length (by simp) hinit (by omega) rfl
      have houter : height (outer ++ push :: inner) = height outer + 1 := by
        simp [rise_of_not_isPop hpush, hinner.height_eq]
      obtain ⟨first, push', inner', rfl, hpush', hinner'⟩ :=
        ih outer.length (by simp)
          (fun first h => hinit first (h.trans (List.prefix_append _ _))) (by omega) rfl
      refine ⟨first, push', inner' ++ push :: (inner ++ [last]), by simp, hpush', ?_⟩
      exact hinner'.append (hinner.enclose hpush hlast)

/-- What comes behind a push is less deep than the whole. -/
theorem depth_lt_of_prefix {outer inner : List Inst}
    (hlow : ∀ before, before <+: is → 0 ≤ height before) (hpush : push.isPop = false)
    (h : outer ++ push :: inner <+: is) : depth inner < depth is := by
  have hbelow : (depth inner : Int) ≤ depth is - 1 := by
    rw [depth_le_iff]
    intro first hfirst
    have hbefore : outer ++ push :: first <+: is :=
      ((List.prefix_append_right_inj outer).mpr (List.prefix_cons_inj push |>.mpr hfirst)).trans h
    have hle := height_le_depth hbefore
    have houter := hlow outer ((List.prefix_append outer _).trans h)
    rw [height_append, height_cons, rise_of_not_isPop hpush] at hle
    omega
  omega

end Inst

namespace Machine

variable {m m' : Machine} {i : Inst} {is inner : List Inst} {r : Reg} {h : Int} {d : Nat}

/-! ### One push and one pop -/

/-- The machine behind instructions that are executed one after another. -/
def execAll (m : Machine) (is : List Inst) : Machine := is.foldl exec m

theorem execAll_append (m : Machine) (is js : List Inst) :
    m.execAll (is ++ js) = (m.execAll is).execAll js := List.foldl_append

theorem execAll_cons (m : Machine) (i : Inst) (is : List Inst) :
    m.execAll (i :: is) = (m.exec i).execAll is := rfl

theorem execAll_concat (m : Machine) (is : List Inst) (i : Inst) :
    m.execAll (is ++ [i]) = (m.execAll is).exec i := m.execAll_append is [i]

/-- A processor that has 256 pages of its own, none of them read-only, and finds all its addresses
there. It need not be at work. -/
structure IsLocal (m : Machine) : Prop where
  memory : m.cpu.memory.IsFull
  control : m.cpu.regs.control = 0

theorem IsLocal.sourceValue_eq (hm : m.IsLocal) (i : Inst) :
    m.sourceValue i = (m.value i.src i.srcImm, m) :=
  sourceValue_of_control_eq_zero hm.control i

/-- A pop takes the word that the pointer leads to, and moves the pointer behind it. -/
theorem exec_pop (hm : m.IsLocal) (hpop : i.IsPopFrom r) :
    ∃ regs, m.exec i = m.withRegs regs ∧ regs.control = 0 ∧
      regs.get r = m.cpu.regs.get r + 1 ∧
      ((m.exec i).destinationValue i).1 = (m.cpu.peek (m.cpu.regs.get r)).getD 0 := by
  have hvalue : m.value i.src i.srcImm = (m.cpu.peek (m.cpu.regs.get r)).getD 0 := by
    have hzero : m.cpu.regs.get r + Word.ofInt 0 = m.cpu.regs.get r := UInt16.add_zero _
    rw [hpop.src_eq, hpop.srcImm_eq, value, hzero]
  rw [exec_copy hpop.opcode_eq hpop.effect_eq (hm.sourceValue_eq i), hvalue]
  generalize (m.cpu.peek (m.cpu.regs.get r)).getD 0 = w
  rcases hpop.dst_eq with hdst | ⟨s, hs, hdst⟩
  · have hendless (pc : Word) : isEndless i pc w = false := by
      simp [isEndless, hpop.src_eq, Source.isMem]
    have hexec : (m.store i w).movePointer i =
        m.withRegs ({ m.cpu.regs with pc := w }.set r (m.cpu.regs.get r + 1)) := by
      simp only [store, hdst, hendless, movePointer, hpop.src_eq, hpop.isPop_eq]
      cases r <;> rfl
    simp only [hexec, hdst, if_true]
    refine ⟨_, rfl, (Registers.control_set ..).trans hm.control, ?_, ?_⟩
    · rw [Registers.get_set, if_pos rfl]
    · simp only [destinationValue, hdst, regs_withRegs, Registers.pc_set]
  · have hpc : i.dst ≠ .pc := by rw [hdst]; exact Destination.noConfusion
    have hexec : ((m.store i w).movePointer i).advance =
        m.withRegs { (m.cpu.regs.set s w).set r (m.cpu.regs.get r + 1) with
          pc := m.cpu.regs.pc + 1 } := by
      have hget : (m.cpu.regs.set s w).get r = m.cpu.regs.get r := by
        rw [Registers.get_set, if_neg hs]
      simp only [store, hdst, movePointer, hpop.src_eq, hpop.isPop_eq, if_true, advance,
        regs_withRegs, hget, Registers.pc_set]
      rfl
    simp only [if_neg hpc, hexec]
    refine ⟨_, rfl, ?_, ?_, ?_⟩
    · exact ((Registers.control_set ..).trans (Registers.control_set ..)).trans hm.control
    · rw [Registers.get_withPc, Registers.get_set, if_pos rfl]
    · simp only [destinationValue, hdst, regs_withRegs, Registers.get_withPc]
      rw [Registers.get_set, if_neg hs.symm, Registers.get_set, if_pos rfl]

/-! ### The invariant -/

/-- What becomes of a machine by pushes and pops through a register: the stack is so many words
high, and nothing was changed but the words of its greatest height. -/
structure Stands (m m' : Machine) (r : Reg) (h : Int) (d : Nat) : Prop where
  isLocal : m'.IsLocal
  bank_eq : m'.bank = m.bank
  get_eq : m'.cpu.regs.get r = m.cpu.regs.get r - Word.ofInt h
  peek_eq : ∀ addr, (∀ j, 1 ≤ j → j ≤ d → addr ≠ m.cpu.regs.get r - UInt16.ofNat j) →
    m'.cpu.peek addr = m.cpu.peek addr

namespace Stands

theorem refl (hm : m.IsLocal) : m.Stands m r 0 d :=
  ⟨hm, rfl, (Word.sub_ofNat_zero _).symm, fun _ _ => rfl⟩

/-- **A push stays within the stack**, if that may be higher still. -/
theorem push (hs : m.Stands m' r h d) (hpush : i.IsPushOnto r) (hlow : 0 ≤ h) (hhigh : h < d) :
    m.Stands (m'.exec i) r (h + 1) d := by
  have hpointer : m'.cpu.regs.get r - 1 = m.cpu.regs.get r - Word.ofInt (h + 1) := by
    have hone : Word.ofInt 1 = 1 := rfl
    rw [hs.get_eq, Word.ofInt_add, hone]
    grind
  rw [exec_push hs.isLocal.control hpush.opcode_eq hpush.effect_eq hpush.dst_eq hpush.push_eq
    hpush.dstImm_eq]
  refine ⟨⟨hs.isLocal.memory.writeAt _ _, ?_⟩, hs.bank_eq, ?_, fun addr haddr => ?_⟩
  · exact (Registers.control_set ..).trans hs.isLocal.control
  · rw [Registers.get_withPc, Registers.get_set, if_pos rfl, hpointer]
  · have hne : addr ≠ m'.cpu.regs.get r - 1 := by
      have hcast : ((h + 1).toNat : Int) = h + 1 := by omega
      rw [hpointer, ← hcast, Word.ofInt_natCast]
      exact haddr _ (by omega) (by omega)
    refine (hs.isLocal.memory.readAt_writeAt ..).trans ?_
    rw [if_neg hne]
    exact hs.peek_eq addr haddr

/-- **A pop writes nothing to memory**, and takes the stack down by a word. -/
theorem pop (hs : m.Stands m' r h d) (hpop : i.IsPopFrom r) :
    m.Stands (m'.exec i) r (h - 1) d := by
  obtain ⟨regs, hexec, hcontrol, hget, -⟩ := exec_pop hs.isLocal hpop
  rw [hexec]
  refine ⟨⟨hs.isLocal.memory, hcontrol⟩, hs.bank_eq, ?_, hs.peek_eq⟩
  have hone : Word.ofInt 1 = 1 := rfl
  rw [regs_withRegs, hget, hs.get_eq, Word.ofInt_sub, hone]
  grind

end Stands

/-- **The invariant of pushes and pops in a row**, as long as they never take the stack below where
it was. -/
theorem stands_execAll (hm : m.IsLocal) (hops : ∀ i ∈ is, i.IsPushOnto r ∨ i.IsPopFrom r)
    (hlow : ∀ before, before <+: is → 0 ≤ Inst.height before) (hdepth : Inst.depth is ≤ d) :
    m.Stands (m.execAll is) r (Inst.height is) d := by
  induction is using List.reverseRecOn with
  | nil => exact .refl hm
  | append_singleton is i ih =>
    have hfirst : is <+: is ++ [i] := List.prefix_append is [i]
    have hs := ih (fun j hj => hops j (List.mem_append_left _ hj))
      (fun before h => hlow before (h.trans hfirst))
      (Nat.le_trans (Inst.depth_le_of_prefix hfirst) hdepth)
    have hheight : Inst.height (is ++ [i]) = Inst.height is + i.rise := by simp
    rw [execAll_concat, hheight]
    rcases hops i (List.mem_append_right _ List.mem_cons_self) with hpush | hpop
    · have hrise := Inst.rise_of_not_isPop hpush.isPop_eq
      have hle := Inst.height_le_depth (List.prefix_refl (is ++ [i]))
      rw [hheight, hrise] at hle
      rw [hrise]
      exact hs.push hpush (hlow is hfirst) (by omega)
    · rw [Inst.rise_of_isPop hpop.isPop_eq]
      exact hs.pop hpop

/-! ### What is popped is what was pushed -/

/-- **A pop delivers what its push has read.** The sequence between them is balanced, and the stack
is not so high on the way that it would go around all addresses. -/
theorem destinationValue_of_match (hm : m.IsLocal) {push pop : Inst} (hpush : push.IsPushOnto r)
    (hpop : pop.IsPopFrom r) (hops : ∀ i ∈ inner, i.IsPushOnto r ∨ i.IsPopFrom r)
    (hinner : Inst.IsBalanced inner) (hdepth : Inst.depth inner < 65536) :
    ((m.execAll (push :: (inner ++ [pop]))).destinationValue pop).1 = (m.sourceValue push).1 := by
  have hpushed := (Stands.refl hm (r := r) (d := 1)).push hpush (Int.le_refl 0) (by decide)
  have hs := stands_execAll hpushed.isLocal hops hinner.nonneg (Nat.le_refl _)
  have hpointer : ((m.exec push).execAll inner).cpu.regs.get r = m.cpu.regs.get r - 1 := by
    rw [hs.get_eq, hinner.height_eq, hpushed.get_eq]
    exact UInt16.sub_zero _
  have hword : ((m.exec push).execAll inner).cpu.peek (m.cpu.regs.get r - 1)
      = some (m.value push.src push.srcImm) := by
    have hfirst : (m.exec push).cpu.regs.get r = m.cpu.regs.get r - 1 := hpushed.get_eq
    rw [hs.peek_eq _ fun j hlow hhigh heq => ?_, exec_push hm.control hpush.opcode_eq
      hpush.effect_eq hpush.dst_eq hpush.push_eq hpush.dstImm_eq]
    · exact (hm.memory.readAt_writeAt ..).trans (if_pos rfl)
    · -- So many words below the pushed one is not where that is.
      have hzero : UInt16.ofNat j = (0 : Word) := by
        rw [hfirst] at heq
        grind
      have hnat := congrArg UInt16.toNat hzero
      rw [Word.toNat_ofNat_of_lt (by omega)] at hnat
      simp at hnat
      omega
  obtain ⟨_, -, -, -, hdelivers⟩ := exec_pop hs.isLocal hpop
  rw [execAll_cons, execAll_concat, hdelivers, hpointer, hword, hm.sourceValue_eq]
  rfl

/-- **Stacks unwind.** Take a processor with 256 pages that it may write and no bit in its control
register, a register, and pushes and pops through it that are balanced and make a stack of at most
65536 words. Behind all of them the register is where it was. Every pop has a push that it takes the
word back of, and delivers what that push had read from its source. At no time is a word of memory
changed but those that lie below the first place of the pointer, as many as the stack was high. -/
theorem stack_unwinds (hm : m.IsLocal) (hops : ∀ i ∈ is, i.IsPushOnto r ∨ i.IsPopFrom r)
    (hbalanced : Inst.IsBalanced is) (hdepth : Inst.depth is ≤ 65536) :
    (m.execAll is).cpu.regs.get r = m.cpu.regs.get r ∧
    (∀ before pop after, is = before ++ pop :: after → pop.isPop = true →
      (∃ outer push, Inst.EndsOnTop before outer push) ∧
      ∀ outer push, Inst.EndsOnTop before outer push →
        ((m.execAll (before ++ [pop])).destinationValue pop).1
          = ((m.execAll outer).sourceValue push).1) ∧
    (∀ before, before <+: is → ∀ addr,
      (∀ j, 1 ≤ j → j ≤ Inst.depth is → addr ≠ m.cpu.regs.get r - UInt16.ofNat j) →
      (m.execAll before).cpu.peek addr = m.cpu.peek addr) ∧
    (m.execAll is).bank = m.bank := by
  have hlow := hbalanced.nonneg
  have hstands {before : List Inst} (hbefore : before <+: is) :
      m.Stands (m.execAll before) r (Inst.height before) (Inst.depth is) :=
    stands_execAll hm (fun i hi => hops i (hbefore.subset hi))
      (fun first h => hlow first (h.trans hbefore)) (Inst.depth_le_of_prefix hbefore)
  have hwhole := hstands (List.prefix_refl is)
  refine ⟨?_, ?_, fun before hbefore => (hstands hbefore).peek_eq, hwhole.bank_eq⟩
  · rw [hwhole.get_eq, hbalanced.height_eq]
    exact UInt16.sub_zero _
  · rintro before pop after rfl hisPop
    have hmem : pop ∈ before ++ pop :: after := List.mem_append_right _ List.mem_cons_self
    have hpop : pop.IsPopFrom r := (hops pop hmem).resolve_left fun hpush =>
      Bool.false_ne_true (hpush.isPop_eq.symm.trans hisPop)
    have hbefore : before <+: before ++ pop :: after := List.prefix_append ..
    constructor
    · have hnonneg := hlow (before ++ [pop]) (by simp)
      rw [Inst.height_append, Inst.height_cons, Inst.rise_of_isPop hisPop, Inst.height_nil]
        at hnonneg
      exact Inst.exists_endsOnTop (fun first h => hlow first (h.trans hbefore)) (by omega)
    · rintro outer push ⟨inner, rfl, hpush, hinner⟩
      have houter : outer <+: outer ++ push :: inner := List.prefix_append ..
      have hops' : ∀ i ∈ push :: inner, i.IsPushOnto r ∨ i.IsPopFrom r := fun i hi =>
        hops i (hbefore.subset (List.mem_append_right _ hi))
      have hpushes : push.IsPushOnto r :=
        (hops' push List.mem_cons_self).resolve_right fun hpop =>
          Bool.false_ne_true (hpush.symm.trans hpop.isPop_eq)
      have hless := Inst.depth_lt_of_prefix hlow hpush hbefore
      rw [List.append_assoc, List.cons_append, execAll_append]
      exact destinationValue_of_match (hstands (houter.trans hbefore)).isLocal hpushes hpop
        (fun i hi => hops' i (List.mem_cons_of_mem _ hi)) hinner (by omega)

/-- Two words on a stack that begins at address 0 and goes on below at the last addresses. The
second is three more than the pointer behind the first. It goes to the program counter, and the
first to another register. -/
theorem stack_unwinds_two :
    let m : Machine := { cpu := .new 1 256 0 }
    let first : Inst := ⟨.copy, .imm, .mem .r1, 5, 0, .always, true⟩
    let second : Inst := ⟨.copy, .reg .r1, .mem .r1, 3, 0, .always, true⟩
    let jump : Inst := ⟨.copy, .mem .r1, .pc, 0, 0, .always, true⟩
    let last : Inst := ⟨.copy, .mem .r1, .reg .r2, 0, 0, .always, true⟩
    m.IsLocal ∧ (∀ i ∈ [first, second, jump, last], i.IsPushOnto .r1 ∨ i.IsPopFrom .r1) ∧
      Inst.IsBalanced [first, second, jump, last] ∧ Inst.depth [first, second, jump, last] = 2 ∧
      (m.execAll [first, second, jump, last]).cpu.regs.get .r1 = 0 ∧
      ((m.execAll [first, second, jump]).destinationValue jump).1 = 2 ∧
      ((m.execAll [first, second, jump, last]).destinationValue last).1 = 5 ∧
      (m.execAll [first, second, jump, last]).cpu.peek 7 = m.cpu.peek 7 := by
  intro m first second jump last
  have hm : m.IsLocal := ⟨⟨Memory.pages_blank 256 0, rfl⟩, rfl⟩
  have hfirst : first.IsPushOnto .r1 := ⟨rfl, rfl, rfl, rfl, rfl⟩
  have hsecond : second.IsPushOnto .r1 := ⟨rfl, rfl, rfl, rfl, rfl⟩
  have hjump : jump.IsPopFrom .r1 := ⟨rfl, rfl, rfl, rfl, rfl, .inl rfl⟩
  have hlast : last.IsPopFrom .r1 := ⟨rfl, rfl, rfl, rfl, rfl, .inr ⟨.r2, nofun, rfl⟩⟩
  have hops : ∀ i ∈ [first, second, jump, last], i.IsPushOnto .r1 ∨ i.IsPopFrom .r1 := by
    simp [hfirst, hsecond, hjump, hlast]
  have hinner : Inst.IsBalanced [second, jump] := Inst.IsBalanced.nil.enclose rfl rfl
  have hdepth : Inst.depth [first, second, jump, last] = 2 := by decide
  have hbalanced : Inst.IsBalanced [first, second, jump, last] := hinner.enclose rfl rfl
  obtain ⟨hget, hdelivers, hpeek, -⟩ := stack_unwinds hm hops hbalanced (by rw [hdepth]; decide)
  refine ⟨hm, hops, hbalanced, hdepth, hget, ?_, ?_, ?_⟩
  · have hjumps := (hdelivers [first, second] jump [last] rfl rfl).2 [first] second
      ⟨[], rfl, rfl, .nil⟩
    exact hjumps.trans (by decide +kernel)
  · exact (hdelivers [first, second, jump] last [] rfl rfl).2 [] first
      ⟨[second, jump], rfl, rfl, hinner⟩
  · refine hpeek _ (List.prefix_refl _) 7 fun j hlow hhigh => ?_
    rw [hdepth] at hhigh
    obtain rfl | rfl : j = 1 ∨ j = 2 := by omega
    · decide
    · decide

end Machine

end WordMachine
