import WordMachine.Proofs.Execution

/-!
# The calling convention

A call keeps words of the stack for its results, pushes the address that it comes back to and then
the arguments, and jumps to the callee. This file is about the instructions for that, on a plain
machine, and not about how they are written.

## What has to fit together

Three things move while a call is under way. The stack pointer falls, so an argument that lies on
the stack is further from it at each push: `Argument.pushInst` takes the number of words by which
the pointer has moved. The program counter rises, and the return address is counted from the push
that stores it, so it depends on the number of pushes that follow. And memory fills up below the
pointer, which must not happen to words that are still to be read or executed. `MidCall` is the one
invariant of all pushes: the pointer has fallen by so many words, and the rest is as it was.

## Main results

* `Machine.MidCall.value_pushInst`: an argument is read as what it denotes before the call
* `Machine.MidCall.pushAll`: what one push preserves
* `Machine.run_pushInsts`: the pushes of any number of arguments
* `Machine.run_call`: a whole call
-/

namespace WordMachine

namespace Assembly

namespace Call

/-- An argument of a call: a number, a register, or a word of memory, the latter two with a number
beside them or without. -/
inductive Argument where
  | value (k : Int)
  | reg (r : Reg) (k : Option Int)
  | mem (r : Reg) (k : Option Int)
  deriving DecidableEq, Repr, Inhabited

namespace Argument

/-- The operand of an argument. -/
def source : Argument → Source
  | value _ => .imm
  | reg r _ => .reg r
  | mem r _ => .mem r

/-- The number beside the operand of an argument. -/
def imm? : Argument → Option Int
  | value k => some k
  | reg _ k => k
  | mem _ k => k

/-- The word that an argument denotes on a machine. -/
def denotes (m : Machine) : Argument → Word
  | value k => Word.ofInt k
  | reg r k => m.cpu.regs.get r + Word.ofInt (k.getD 0)
  | mem r k => (m.cpu.peek (m.cpu.regs.get r + Word.ofInt (k.getD 0))).getD 0

/-- The address that an argument is read from, if it is in memory. -/
def address? (m : Machine) : Argument → Option Word
  | mem r k => some (m.cpu.regs.get r + Word.ofInt (k.getD 0))
  | _ => none

/-- The immediate of an argument once the stack has moved by so many words. -/
def offset (stack : Reg) (moved : Nat) (arg : Argument) : Int :=
  arg.imm?.getD 0 + if arg.source = .mem stack then (moved : Int) else 0

/-- The instruction that pushes an argument once the stack has moved by so many words. -/
def pushInst (stack : Reg) (moved : Nat) (arg : Argument) : Inst :=
  { opcode := .copy, src := arg.source, dst := .mem stack, srcImm := arg.offset stack moved,
    dstImm := 0, effect := .always, push := true }

end Argument

/-- The instructions that push arguments, the first of them once the stack has moved by `moved`. -/
def pushInsts (stack : Reg) (moved : Nat) : List Argument → List Inst
  | [] => []
  | arg :: rest => arg.pushInst stack moved :: pushInsts stack (moved + 1) rest

/-- The instruction that keeps words of a stack. Where there are none to be kept, it is left out. -/
def keepInsts (stack : Reg) (kept : Nat) : List Inst :=
  if kept = 0 then []
  else [{ opcode := .copy, src := .reg stack, dst := .reg stack, srcImm := -kept, dstImm := 0,
          effect := .always, push := false }]

/-- The instruction that pushes the address of the word so far behind it. -/
def returnInst (stack : Reg) (ahead : Nat) : Inst :=
  { opcode := .copy, src := .pc, dst := .mem stack, srcImm := ahead, dstImm := 0,
    effect := .always, push := true }

/-- The instruction that jumps by a distance. -/
def jumpInst (distance : Int) : Inst :=
  { opcode := .copy, src := .pc, dst := .pc, srcImm := distance, dstImm := 0, effect := .always,
    push := false }

/-- The instructions of a call in front of its jump. -/
def frameInsts (stack : Reg) (kept : Nat) (args : List Argument) : List Inst :=
  keepInsts stack kept ++ returnInst stack (args.length + 2) :: pushInsts stack (1 + kept) args

theorem length_pushInsts (stack : Reg) (moved : Nat) (args : List Argument) :
    (pushInsts stack moved args).length = args.length := by
  induction args generalizing moved with
  | nil => rfl
  | cons arg rest ih => rw [pushInsts, List.length_cons, ih, List.length_cons]

theorem length_keepInsts (stack : Reg) (kept : Nat) :
    (keepInsts stack kept).length = if kept = 0 then 0 else 1 := by
  rw [keepInsts]
  split <;> rfl

end Call

end Assembly

namespace Machine

open Assembly.Call

variable {m s : Machine} {stack : Reg}

/-! ### Arguments -/

/-- A machine in the middle of a call: the pointer has moved by so many words, and the other
registers and the words at the addresses `Kept` are what they were before the call. -/
structure MidCall (m s : Machine) (stack : Reg) (Kept : Word → Prop) (moved : Nat) : Prop where
  isPlain : s.IsPlain
  pointer : s.cpu.regs.get stack = m.cpu.regs.get stack - UInt16.ofNat moved
  get_of_ne : ∀ r, r ≠ stack → s.cpu.regs.get r = m.cpu.regs.get r
  peek_of_kept : ∀ a, Kept a → s.cpu.peek a = m.cpu.peek a

namespace MidCall

variable {Kept : Word → Prop} {moved : Nat}

/-- An argument is read as what it denotes before the call, although the pointer has moved since. -/
theorem value_pushInst (h : MidCall m s stack Kept moved) {arg : Argument}
    (hkept : ∀ a ∈ arg.address? m, Kept a) (hreg : ∀ r k, arg = .reg r k → r ≠ stack) :
    s.value (arg.pushInst stack moved).src (arg.pushInst stack moved).srcImm = arg.denotes m := by
  cases arg with
  | value k =>
    change Word.ofInt (k + 0) = Word.ofInt k
    rw [Int.add_zero]
  | reg r k =>
    change s.cpu.regs.get r + Word.ofInt (k.getD 0 + 0) = _
    rw [Int.add_zero, h.get_of_ne r (hreg r k rfl)]
    rfl
  | mem r k =>
    have haddr : s.cpu.regs.get r + Word.ofInt ((Argument.mem r k).offset stack moved)
        = m.cpu.regs.get r + Word.ofInt (k.getD 0) := by
      by_cases hr : r = stack
      · subst hr
        rw [Argument.offset, Argument.source, if_pos rfl, Word.ofInt_add, Word.ofInt_natCast,
          h.pointer]
        change _ - _ + (Word.ofInt (k.getD 0) + _) = _
        grind
      · have hne : Source.mem r ≠ .mem stack := fun hmem => hr (Source.mem.inj hmem)
        rw [Argument.offset, Argument.source, if_neg hne, Int.add_zero, h.get_of_ne r hr]
        rfl
    change (s.cpu.peek
      (s.cpu.regs.get r + Word.ofInt ((Argument.mem r k).offset stack moved))).getD 0 = _
    rw [haddr, h.peek_of_kept _ (hkept _ rfl)]
    rfl

/-- Words at kept addresses survive a push elsewhere. -/
theorem peek_pushAll (h : MidCall m s stack Kept moved) {v : Word}
    (hkept : ∀ a, Kept a → a ≠ m.cpu.regs.get stack - UInt16.ofNat (moved + 1)) {a : Word}
    (ha : Kept a) : (s.pushAll stack [v]).cpu.peek a = s.cpu.peek a := by
  refine h.isPlain.peek_pushAll_of_ne fun j hj => ?_
  obtain rfl : j = 0 := Nat.lt_one_iff.mp hj
  have hne := hkept a ha
  rw [Word.sub_ofNat_add, ← h.pointer] at hne
  rw [Word.sub_ofNat_zero]
  exact hne

/-- A push moves the pointer by one word more. -/
theorem pushAll (h : MidCall m s stack Kept moved) (v : Word)
    (hkept : ∀ a, Kept a → a ≠ m.cpu.regs.get stack - UInt16.ofNat (moved + 1)) :
    MidCall m (s.pushAll stack [v]) stack Kept (moved + 1) where
  isPlain := h.isPlain.pushAll
  pointer := by
    rw [get_pushAll, if_pos rfl, h.pointer, ← Word.sub_ofNat_add]
    rfl
  get_of_ne := by
    intro r hr
    rw [get_pushAll, if_neg (Ne.symm hr)]
    exact h.get_of_ne r hr
  peek_of_kept := by
    intro a ha
    rw [h.peek_pushAll hkept ha]
    exact h.peek_of_kept a ha

end MidCall

/-- **Arguments are pushed as what they denote before the call.** Nothing is pushed to an address
that is kept, and code and arguments are at such addresses. -/
theorem run_pushInsts {Kept : Word → Prop} {args : List Argument} {moved : Nat}
    (h : MidCall m s stack Kept moved)
    (hcode : s.Holds s.cpu.regs.pc (pushInsts stack moved args))
    (hkept : ∀ a, Kept a → ∀ j < args.length,
      a ≠ m.cpu.regs.get stack - UInt16.ofNat (moved + 1 + j))
    (hkeptCode : ∀ j < args.length, Kept (s.cpu.regs.pc + UInt16.ofNat j))
    (hkeptArgs : ∀ arg ∈ args, ∀ a ∈ arg.address? m, Kept a)
    (hreg : ∀ r k, .reg r k ∈ args → r ≠ stack) :
    run args.length s = s.pushAll stack (args.map (·.denotes m)) := by
  induction args generalizing s moved with
  | nil => exact (pushAll_nil s stack).symm
  | cons arg rest ih =>
    obtain ⟨⟨w, hw, hi⟩, hrest⟩ := hcode
    have hvalue := h.value_pushInst (hkeptArgs arg List.mem_cons_self)
      fun r k harg => hreg r k (harg ▸ List.mem_cons_self)
    have hstep : s.step = s.pushAll stack [arg.denotes m] :=
      hvalue ▸ h.isPlain.step_push hw hi rfl rfl rfl rfl rfl
    have hfirst : ∀ a, Kept a → a ≠ m.cpu.regs.get stack - UInt16.ofNat (moved + 1) := by
      intro a ha
      exact hkept a ha 0 (Nat.zero_lt_succ _)
    have hpc (j : Nat) : (s.pushAll stack [arg.denotes m]).cpu.regs.pc + UInt16.ofNat j
        = s.cpu.regs.pc + UInt16.ofNat (j + 1) := by
      rw [pc_pushAll, Word.add_ofNat_succ]
      rfl
    rw [List.length_cons, run_succ, hstep, ih (h.pushAll (arg.denotes m) hfirst)]
    · rw [pushAll_append]
      rfl
    · refine hrest.of_peek_eq fun j hj => h.peek_pushAll hfirst ?_
      rw [length_pushInsts] at hj
      rw [← Word.add_ofNat_succ]
      exact hkeptCode (j + 1) (Nat.succ_lt_succ hj)
    · intro a ha j hj
      have hnext := hkept a ha (j + 1) (Nat.succ_lt_succ hj)
      rw [Nat.add_right_comm]
      exact hnext
    · intro j hj
      rw [hpc]
      exact hkeptCode (j + 1) (Nat.succ_lt_succ hj)
    · exact fun other hother => hkeptArgs other (List.mem_cons_of_mem arg hother)
    · exact fun r k hmem => hreg r k (List.mem_cons_of_mem arg hmem)

/-! ### The whole call -/

/-- A machine after words of a stack have been kept. -/
def reserve (m : Machine) (stack : Reg) (kept : Nat) : Machine :=
  if kept = 0 then m else m.moveTo stack (m.cpu.regs.get stack - UInt16.ofNat kept)

/-- Whether a call leaves an address alone that keeps so many words and has so many arguments. -/
def Spares (m : Machine) (stack : Reg) (kept args : Nat) (a : Word) : Prop :=
  ∀ j ≤ args, a ≠ m.cpu.regs.get stack - UInt16.ofNat kept - 1 - UInt16.ofNat j

theorem IsPlain.reserve (h : m.IsPlain) (stack : Reg) (kept : Nat) :
    (m.reserve stack kept).IsPlain := by
  rw [Machine.reserve]
  split
  · exact h
  · exact h.moveTo

theorem regs_reserve (kept : Nat) : (m.reserve stack kept).cpu.regs
    = { m.cpu.regs.set stack (m.cpu.regs.get stack - UInt16.ofNat kept) with
        pc := m.cpu.regs.pc + UInt16.ofNat (keepInsts stack kept).length } := by
  rw [length_keepInsts]
  rw [reserve]
  split
  · next hkept =>
    rw [hkept, Word.sub_ofNat_zero, Word.add_ofNat_zero, Registers.set_get_self]
  · rfl

theorem pc_reserve (kept : Nat) : (m.reserve stack kept).cpu.regs.pc
    = m.cpu.regs.pc + UInt16.ofNat (keepInsts stack kept).length := by
  rw [regs_reserve]

theorem get_reserve (kept : Nat) (r : Reg) : (m.reserve stack kept).cpu.regs.get r
    = if stack = r then m.cpu.regs.get stack - UInt16.ofNat kept else m.cpu.regs.get r := by
  rw [regs_reserve]
  cases stack <;> cases r <;> rfl

theorem peek_reserve (kept : Nat) (a : Word) :
    (m.reserve stack kept).cpu.peek a = m.cpu.peek a := by
  rw [reserve]
  split <;> rfl

theorem run_keepInsts {kept : Nat} (h : m.IsPlain)
    (hcode : m.Holds m.cpu.regs.pc (keepInsts stack kept)) :
    run (keepInsts stack kept).length m = m.reserve stack kept := by
  unfold keepInsts reserve at *
  split
  · rfl
  · next hkept =>
    rw [if_neg hkept] at hcode
    obtain ⟨⟨w, hw, hi⟩, -⟩ := hcode
    rw [List.length_singleton, run_succ, h.step_move hw hi rfl rfl rfl rfl]
    change m.moveTo stack (m.cpu.regs.get stack + Word.ofInt (-kept)) = _
    rw [Word.ofInt_neg, Word.ofInt_natCast]
    congr 1
    grind

theorem length_frameInsts (stack : Reg) (kept : Nat) (args : List Argument) :
    (frameInsts stack kept args).length = (keepInsts stack kept).length + (args.length + 1) := by
  rw [frameInsts, List.length_append, List.length_cons, length_pushInsts]

/-- What a call leaves alone is as before, once words have been kept and values pushed. -/
theorem peek_pushAll_reserve {kept n : Nat} (h : m.IsPlain) {vs : List Word}
    (hvs : vs.length ≤ n + 1) {a : Word} (ha : m.Spares stack kept n a) :
    ((m.reserve stack kept).pushAll stack vs).cpu.peek a = m.cpu.peek a := by
  refine ((h.reserve stack kept).peek_pushAll_of_ne fun j hj => ?_).trans (peek_reserve kept a)
  rw [get_reserve, if_pos rfl]
  exact ha j (by omega)

/-- Code that a call leaves alone is still there. -/
theorem holds_pushAll_reserve {kept n q : Nat} (h : m.IsPlain) {vs : List Word}
    (hvs : vs.length ≤ n + 1) {is : List Inst} (hcode : m.Holds (m.cpu.regs.pc + UInt16.ofNat q) is)
    (hspare : ∀ j < q + is.length, m.Spares stack kept n (m.cpu.regs.pc + UInt16.ofNat j)) :
    ((m.reserve stack kept).pushAll stack vs).Holds (m.cpu.regs.pc + UInt16.ofNat q) is := by
  refine hcode.of_peek_eq fun j hj => peek_pushAll_reserve h hvs ?_
  rw [← Word.add_ofNat_add]
  exact hspare (q + j) (by omega)

/-- The return address is pushed first, as the address behind the jump. -/
theorem step_returnInst {kept n : Nat} (h : m.IsPlain) {is : List Inst}
    (hcode : m.Holds (m.cpu.regs.pc + UInt16.ofNat (keepInsts stack kept).length)
      (returnInst stack (n + 2) :: is)) :
    (m.reserve stack kept).step = (m.reserve stack kept).pushAll stack
      [m.cpu.regs.pc + UInt16.ofNat ((keepInsts stack kept).length + (n + 1) + 1)] := by
  obtain ⟨⟨w, hw, hi⟩, -⟩ := hcode
  rw [← pc_reserve kept, ← peek_reserve kept] at hw
  rw [(h.reserve stack kept).step_push hw hi rfl rfl rfl rfl rfl]
  change (m.reserve stack kept).pushAll stack
    [(m.reserve stack kept).cpu.regs.pc + Word.ofInt ((n + 2 : Nat) : Int)] = _
  rw [pc_reserve, Word.ofInt_natCast, ← Word.add_ofNat_add, Nat.add_assoc _ (n + 1)]

/-- Behind the return address a call is under way. -/
theorem midCall_reserve {kept n : Nat} (h : m.IsPlain) (back : Word) :
    MidCall m ((m.reserve stack kept).pushAll stack [back]) stack (m.Spares stack kept n)
      (1 + kept) where
  isPlain := (h.reserve stack kept).pushAll
  pointer := by
    rw [get_pushAll, if_pos rfl, get_reserve, if_pos rfl, Nat.add_comm, Word.sub_ofNat_add]
    rfl
  get_of_ne := by
    intro r hr
    rw [get_pushAll, if_neg (Ne.symm hr), get_reserve, if_neg (Ne.symm hr)]
  peek_of_kept := fun a ha => peek_pushAll_reserve h (Nat.le_add_left 1 n) ha

/-- The arguments are pushed behind the return address. -/
theorem run_arguments {kept : Nat} {args : List Argument} {back : Word} (h : m.IsPlain)
    (hcode : m.Holds (m.cpu.regs.pc + UInt16.ofNat ((keepInsts stack kept).length + 1))
      (pushInsts stack (1 + kept) args))
    (hspareCode : ∀ j < (keepInsts stack kept).length + 1 + args.length,
      m.Spares stack kept args.length (m.cpu.regs.pc + UInt16.ofNat j))
    (hspareArgs : ∀ arg ∈ args, ∀ a ∈ arg.address? m, m.Spares stack kept args.length a)
    (hreg : ∀ r k, .reg r k ∈ args → r ≠ stack) :
    run args.length ((m.reserve stack kept).pushAll stack [back])
      = (m.reserve stack kept).pushAll stack (back :: args.map (·.denotes m)) := by
  have hpc : ((m.reserve stack kept).pushAll stack [back]).cpu.regs.pc
      = m.cpu.regs.pc + UInt16.ofNat ((keepInsts stack kept).length + 1) := by
    rw [pc_pushAll, pc_reserve, ← Word.add_ofNat_add, List.length_singleton]
  rw [run_pushInsts (midCall_reserve h back) _ _ _ hspareArgs hreg]
  · rw [pushAll_append, List.singleton_append]
  · rw [hpc]
    refine holds_pushAll_reserve h (Nat.le_add_left 1 args.length) hcode fun j hj => ?_
    rw [length_pushInsts] at hj
    exact hspareCode j hj
  · intro a ha j hj
    have hsum : 1 + kept + 1 + j = kept + 1 + (j + 1) := by omega
    rw [hsum, Word.sub_ofNat_add _ (kept + 1), Word.sub_ofNat_add _ kept]
    exact ha (j + 1) hj
  · intro j hj
    rw [hpc, ← Word.add_ofNat_add]
    exact hspareCode _ (by omega)

/-- **A whole call.** The return address and the arguments are pushed below the words kept, and
control goes to where the jump leads. -/
theorem run_call {kept : Nat} {args : List Argument} {distance : Int} (h : m.IsPlain)
    (hcode : m.Holds m.cpu.regs.pc (frameInsts stack kept args ++ [jumpInst distance]))
    (hspareCode : ∀ j < (frameInsts stack kept args).length + 1,
      m.Spares stack kept args.length (m.cpu.regs.pc + UInt16.ofNat j))
    (hspareArgs : ∀ arg ∈ args, ∀ a ∈ arg.address? m, m.Spares stack kept args.length a)
    (hreg : ∀ r k, .reg r k ∈ args → r ≠ stack) :
    run ((frameInsts stack kept args).length + 1) m =
      ((m.reserve stack kept).pushAll stack
        ((m.cpu.regs.pc + UInt16.ofNat ((frameInsts stack kept args).length + 1))
          :: args.map (·.denotes m))).jumpTo
        (m.cpu.regs.pc + UInt16.ofNat (frameInsts stack kept args).length
          + Word.ofInt distance) := by
  obtain ⟨hframe, hjump⟩ := holds_append.mp hcode
  obtain ⟨hkeep, hpushes⟩ := holds_append.mp hframe
  have hargs : m.Holds (m.cpu.regs.pc + UInt16.ofNat ((keepInsts stack kept).length + 1))
      (pushInsts stack (1 + kept) args) := by
    rw [Word.add_ofNat_add]
    exact hpushes.2
  rw [length_frameInsts] at hspareCode hjump ⊢
  have hreturn := step_returnInst h hpushes
  generalize m.cpu.regs.pc + UInt16.ofNat ((keepInsts stack kept).length + (args.length + 1) + 1)
    = back at hreturn ⊢
  have harguments := @run_arguments m stack kept args back h hargs
    (fun j hj => hspareCode j (by omega)) hspareArgs hreg
  -- The jump is read from memory after all the pushes.
  have hlength : (back :: args.map (·.denotes m)).length ≤ args.length + 1 := by
    simp only [List.length_cons, List.length_map, Nat.le_refl]
  have hpc : ((m.reserve stack kept).pushAll stack (back :: args.map (·.denotes m))).cpu.regs.pc
      = m.cpu.regs.pc + UInt16.ofNat ((keepInsts stack kept).length + (args.length + 1)) := by
    rw [pc_pushAll, pc_reserve, ← Word.add_ofNat_add, List.length_cons, List.length_map]
  obtain ⟨⟨w, hw, hi⟩, -⟩ := holds_pushAll_reserve h hlength hjump fun j hj => hspareCode j hj
  rw [← hpc] at hw
  have hstep := step_jump (h.reserve stack kept).pushAll.isRunning hw hi rfl rfl rfl rfl
  change _ = jumpTo _ (_ + Word.ofInt distance) at hstep
  have hsplit : (keepInsts stack kept).length + (args.length + 1) + 1
      = (keepInsts stack kept).length + (1 + (args.length + 1)) := by
    omega
  calc run ((keepInsts stack kept).length + (args.length + 1) + 1) m
      = run (1 + (args.length + 1)) (m.reserve stack kept) := by
        rw [hsplit, run_add, run_keepInsts h hkeep]
    _ = run (args.length + 1) ((m.reserve stack kept).pushAll stack [back]) := by
        rw [run_add, run_one, hreturn]
    _ = run 1 ((m.reserve stack kept).pushAll stack (back :: args.map (·.denotes m))) := by
        rw [run_add, harguments]
    _ = _ := by rw [run_one, hstep, hpc]

end Machine

end WordMachine
