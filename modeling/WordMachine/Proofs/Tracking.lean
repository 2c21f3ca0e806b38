import WordMachine.Proofs.Execution
import WordMachine.Proofs.Steps
import WordMachine.Proofs.Written

/-!
# Tracked aliases

A tracked alias stands for a word at some distance from where a register points. The assembler never
runs a program, and yet it has to know how far a pointer has moved between two lines. It looks at
each operation once and shifts its aliases by as much as the operation moves the pointer.

Both sides are compared here with one definition. `Inst.pointer?` names the register that an
instruction moves as a pointer, and says how far. The table shifts against it (`track_asWritten`),
and the machine moves along with it (`Machine.get_exec`), as long as nothing else writes to the
register. What an alias stands for is then the sum of two numbers of which one goes down by what the
other goes up.

## No overflow

Offsets are kept in 32 bits and registers in 16, and either may wrap around. Neither side ever
compares them, and a residue modulo `2 ^ 32` has its residue modulo `2 ^ 16`, so nothing is assumed
about their size.

## Main results

* `AliasTable.track_asWritten`: the shift that a table makes for an operation
* `Machine.get_exec`: how an instruction that is always taken moves a register
* `AliasTable.locates_track`: an alias stands for the same word behind one instruction
* `AliasTable.locates_foldl_track`: and behind any number of them
-/

namespace WordMachine

/-! ### Pointers -/

namespace Inst

variable {i : Inst} {r : Reg}

/-- The register that an instruction moves as a pointer, and by how many words: a push moves one
down and a pop one up, and a copy of a register to itself moves it by the immediate. -/
def pointer? (i : Inst) : Option (Reg × Int) :=
  match i.src, i.dst, i.push with
  | _, .mem r, true => some (r, -1)
  | .mem r, _, true => some (r, 1)
  | .reg a, .reg b, _ => if a = b ∧ i.opcode = .copy then some (a, i.srcImm) else none
  | _, _, _ => none

/-- How far an instruction moves a register as a pointer. -/
def movement (i : Inst) (r : Reg) : Int :=
  match i.pointer? with
  | some (s, k) => if s = r then k else 0
  | none => 0

/-- A register is written by an instruction only as a pointer. No result is stored there, unless it
is that of a copy of the register to itself. In particular no pop through the register ends in it.
-/
def MovesOnly (i : Inst) (r : Reg) : Prop :=
  i.dst = .reg r → i.opcode = .copy ∧ i.src = .reg r

instance (i : Inst) (r : Reg) : Decidable (i.MovesOnly r) :=
  inferInstanceAs (Decidable (_ → _ ∧ _))

/-- A pointer moves in one of three ways. -/
theorem movement_eq (i : Inst) (r : Reg) :
    i.movement r =
      if i.dst = .mem r ∧ i.push = true then -1
      else if i.src = .mem r ∧ i.isPop = true then 1
      else if i.dst = .reg r ∧ i.src = .reg r ∧ i.opcode = .copy then i.srcImm
      else 0 := by
  obtain ⟨opcode, src, dst, srcImm, dstImm, effect, push⟩ := i
  rcases dst with _ | s | _ | s <;> rcases src with _ | q | _ | q <;> cases push <;>
    simp [movement, pointer?, Instruction.isPop, Source.isMem, Destination.isMem]
  all_goals grind

end Inst

/-! ### The registers behind an instruction

Memory of whatever kind may be read and written on the way, the processor's own control words and
other devices among it. None of this comes back to the processor's registers. -/

namespace Machine

variable {m : Machine} {i : Inst}

@[simp] theorem get_advance (m : Machine) (r : Reg) :
    m.advance.cpu.regs.get r = m.cpu.regs.get r := by
  cases r <;> rfl

/-- A store changes the register that it goes to, or the pointer of a push. -/
theorem get_store (m : Machine) (i : Inst) (w : Word) (r : Reg) :
    (m.store i w).cpu.regs.get r =
      if i.dst = .reg r then w
      else if i.dst = .mem r ∧ i.push = true then m.cpu.regs.get r - 1
      else m.cpu.regs.get r := by
  rw [store]
  rcases hdst : i.dst with _ | s | _ | s
  · dsimp only
    split <;> cases r <;> rfl
  · cases hpush : i.push
    · simp
    · by_cases hs : s = r <;> simp [Registers.get_set, hs]
  · cases r <;> rfl
  · simp [Registers.get_set]

/-- Behind the store a pop moves its pointer. -/
theorem get_movePointer (m : Machine) (i : Inst) (r : Reg) :
    (m.movePointer i).cpu.regs.get r =
      if i.src = .mem r ∧ i.isPop = true then m.cpu.regs.get r + 1 else m.cpu.regs.get r := by
  rw [movePointer]
  rcases hsrc : i.src with _ | s | _ | s
  · simp
  · cases hpop : i.isPop
    · simp
    · by_cases hs : s = r <;> simp [Registers.get_set, hs]
  · simp
  · simp

/-- A result that is stored moves registers as pointers. What goes to a register itself has to be
the sum that a copy of it to itself comes to. -/
theorem get_finish {w : Word} {flags : Flags} {r : Reg} (heffect : i.effect = .always)
    (hmoves : i.MovesOnly r)
    (hw : i.dst = .reg r → w = m.cpu.regs.get r + Word.ofInt i.srcImm) :
    (m.finish i w flags).cpu.regs.get r = m.cpu.regs.get r + Word.ofInt (i.movement r) := by
  have hcommits : i.effect.commits i.cls flags = true := by
    rw [heffect]
    rfl
  have hdown : m.cpu.regs.get r + Word.ofInt (-1) = m.cpu.regs.get r - 1 := by
    have hone : Word.ofInt (-1) = -1 := rfl
    rw [hone]
    grind
  have hstored : ((m.store i w).movePointer i).cpu.regs.get r
      = m.cpu.regs.get r + Word.ofInt (i.movement r) := by
    rw [get_movePointer, get_store, Inst.movement_eq]
    by_cases hreg : i.dst = .reg r
    · -- A copy of a register to itself has no other pointer beside it.
      obtain ⟨hcopy, hsrc⟩ := hmoves hreg
      simp [hreg, hcopy, hsrc, hw hreg]
    · by_cases hpush : i.dst = .mem r ∧ i.push = true
      · have hpop : i.isPop = false := by simp [Instruction.isPop, hpush.1, Destination.isMem]
        simp [hpush, hpop, hdown]
      · by_cases hpop : i.src = .mem r ∧ i.isPop = true
        · simp only [if_neg hreg, if_neg hpush, if_pos hpop]
          rfl
        · simp only [hreg, hpush, hpop, false_and, if_false]
          exact (UInt16.add_zero _).symm
  rw [finish, if_pos hcommits]
  dsimp only
  split
  · exact hstored
  · rw [get_advance]
    exact hstored

/-- **How an instruction moves a register.** One that is always taken and writes to a register only
as a pointer leaves it where its movement leads. -/
theorem get_exec {r : Reg} (m : Machine) (heffect : i.effect = .always) (hmoves : i.MovesOnly r) :
    (m.exec i).cpu.regs.get r = m.cpu.regs.get r + Word.ofInt (i.movement r) := by
  rw [exec]
  rcases hvalue : m.sourceValue i with ⟨a, m₁⟩
  have hsource : m₁.cpu.regs = m.cpu.regs := by rw [← regs_sourceValue m i, hvalue]
  rcases hopcode : i.opcode with _ | op
  · dsimp only
    rw [get_finish heffect hmoves, hsource]
    intro hdst
    -- The value of a register with an immediate is read before anything changes.
    have hsrc := (hmoves hdst).2
    rw [sourceValue, hsrc] at hvalue
    rw [hsource, ← (Prod.mk.inj hvalue).1]
  · have hregs : (m₁.destinationValue i).2.cpu.regs = m.cpu.regs :=
      (regs_destinationValue m₁ i).trans hsource
    dsimp only
    rw [get_finish heffect hmoves, regs_withRegs, hregs]
    · cases r <;> rfl
    · intro hdst
      have hcopy := (hmoves hdst).1
      rw [hopcode] at hcopy
      cases hcopy

end Machine

/-! ### The table -/

namespace Assembly

namespace Alias

theorem ofInt_wrap (i : Int) : Word.ofInt (wrap i) = Word.ofInt i := by
  rw [Word.ofInt_eq_iff, wrap]
  have hbmod : Int.bmod i 4294967296 % 4294967296 = i % 4294967296 := Int.bmod_emod
  omega

end Alias

end Assembly

namespace Inst

/-- The offset that an offset from a register becomes, to make up for the movement of an
instruction. -/
def makeUp (i : Inst) (r : Reg) (offset : Int) : Int :=
  match i.pointer? with
  | some (s, k) => if s = r then Assembly.Alias.wrap (offset + -k) else offset
  | none => offset

theorem ofInt_makeUp (i : Inst) (r : Reg) (offset : Int) :
    Word.ofInt (i.makeUp r offset) = Word.ofInt offset - Word.ofInt (i.movement r) := by
  rw [makeUp, movement]
  rcases i.pointer? with _ | ⟨s, k⟩
  · exact (UInt16.sub_zero _).symm
  · dsimp only
    split
    · rw [Assembly.Alias.ofInt_wrap, ← Int.sub_eq_add_neg, Word.ofInt_sub]
    · exact (UInt16.sub_zero _).symm

end Inst

namespace Assembly

namespace AliasTable

variable {t : AliasTable} {i : Inst} {name : List Char} {r : Reg}

/-- For an operation with numbers for immediates, a table shifts the aliases of the pointer that
moves against its movement. -/
theorem track_asWritten (t : AliasTable) (i : Inst) :
    t.track i.asWritten =
      match i.pointer? with
      | some (r, k) => t.shift r (-k)
      | none => t := by
  obtain ⟨opcode, src, dst, srcImm, dstImm, effect, push⟩ := i
  rcases dst with _ | s | _ | s <;> rcases src with _ | q | _ | q <;> cases push <;> try rfl
  all_goals
    simp only [track, Inst.pointer?, Inst.asWritten]
    by_cases hs : q = s ∧ opcode = .copy <;> simp [hs]

/-- An alias is the name of a place in memory: it is tracked through a register, and the register
and the offset together make the address. -/
def Locates (t : AliasTable) (regs : Registers) (name : List Char) (r : Reg) (addr : Word) : Prop :=
  ∃ offset, t.get? name = some (.tracked r offset) ∧ regs.get r + Word.ofInt offset = addr

/-- A table has an alias that is tracked through a register. -/
def Tracks (t : AliasTable) (r : Reg) : Prop :=
  ∃ name offset, t.get? name = some (.tracked r offset)

/-- Behind an instruction an alias is tracked through the register that it was tracked through
before, and its offset has made up for the movement. -/
theorem get?_track_eq_tracked_iff {offset : Int} :
    (t.track i.asWritten).get? name = some (.tracked r offset) ↔
      ∃ before, t.get? name = some (.tracked r before) ∧ offset = i.makeUp r before := by
  simp only [track_asWritten, Inst.makeUp]
  rcases i.pointer? with _ | ⟨s, k⟩
  · simp [eq_comm]
  · dsimp only
    rw [get?_shift, Option.map_eq_some_iff]
    constructor
    · rintro ⟨_ | ⟨q, before⟩, hget, hshift⟩
      · cases hshift
      · by_cases hq : q = s
        · rw [Alias.shift, if_pos hq] at hshift
          obtain ⟨rfl, rfl⟩ := Alias.tracked.inj hshift
          exact ⟨before, hget, (if_pos hq.symm).symm⟩
        · rw [Alias.shift, if_neg hq] at hshift
          obtain ⟨rfl, rfl⟩ := Alias.tracked.inj hshift
          exact ⟨before, hget, (if_neg (Ne.symm hq)).symm⟩
    · rintro ⟨before, hget, rfl⟩
      refine ⟨_, hget, ?_⟩
      by_cases hs : s = r
      · rw [Alias.shift, if_pos hs.symm, if_pos hs]
      · rw [Alias.shift, if_neg (Ne.symm hs), if_neg hs]

/-- The address of an alias is the same before and behind an instruction that writes to its register
only as a pointer. -/
theorem address_makeUp (m : Machine) (heffect : i.effect = .always) (hmoves : i.MovesOnly r)
    (offset : Int) :
    (m.exec i).cpu.regs.get r + Word.ofInt (i.makeUp r offset)
      = m.cpu.regs.get r + Word.ofInt offset := by
  rw [Machine.get_exec m heffect hmoves, Inst.ofInt_makeUp]
  grind

/-- **One instruction.** The aliases that are tracked through registers that an instruction writes
to only as pointers stand for the same words behind it, and there are no others. -/
theorem locates_track (m : Machine) (heffect : i.effect = .always)
    (hmoves : ∀ r, t.Tracks r → i.MovesOnly r) (name : List Char) (r : Reg) (addr : Word) :
    (t.track i.asWritten).Locates (m.exec i).cpu.regs name r addr ↔
      t.Locates m.cpu.regs name r addr := by
  constructor
  · rintro ⟨_, hget, haddr⟩
    obtain ⟨before, hbefore, rfl⟩ := get?_track_eq_tracked_iff.mp hget
    have hr := hmoves r ⟨name, before, hbefore⟩
    exact ⟨before, hbefore, (address_makeUp m heffect hr before).symm.trans haddr⟩
  · rintro ⟨offset, hget, haddr⟩
    have hr := hmoves r ⟨name, offset, hget⟩
    refine ⟨i.makeUp r offset, get?_track_eq_tracked_iff.mpr ⟨offset, hget, rfl⟩, ?_⟩
    exact (address_makeUp m heffect hr offset).trans haddr

theorem tracks_track : (t.track i.asWritten).Tracks r → t.Tracks r := by
  rintro ⟨name, offset, hget⟩
  obtain ⟨before, hbefore, -⟩ := get?_track_eq_tracked_iff.mp hget
  exact ⟨name, before, hbefore⟩

/-- **Tracked aliases keep denoting the same word.** Let a table be told of operations with numbers
for immediates while a machine executes them, all of them always taken. If no register through which
the table tracks an alias is written to but as a pointer, then after every operation the aliases are
tracked through the registers that they were tracked through at first, and stand for the words that
they stood for at first. -/
theorem locates_foldl_track {t : AliasTable} {m : Machine} {ops : List Operation} {is : List Inst}
    (hops : ops = is.map Inst.asWritten) (heffect : ∀ i ∈ is, i.effect = .always)
    (hmoves : ∀ i ∈ is, ∀ r, t.Tracks r → i.MovesOnly r) (n : Nat) (name : List Char) (r : Reg)
    (addr : Word) :
    ((ops.take n).foldl track t).Locates ((is.take n).foldl Machine.exec m).cpu.regs name r addr ↔
      t.Locates m.cpu.regs name r addr := by
  subst hops
  induction is generalizing t m n with
  | nil => simp
  | cons i is ih =>
    cases n with
    | zero => rfl
    | succ n =>
      rw [List.map_cons, List.take_succ_cons, List.take_succ_cons, List.foldl_cons, List.foldl_cons,
        ih (fun j hj => heffect j (List.mem_cons_of_mem i hj))
          (fun j hj s hs => hmoves j (List.mem_cons_of_mem i hj) s (tracks_track hs))]
      exact locates_track m (heffect i List.mem_cons_self) (hmoves i List.mem_cons_self) name r addr

/-- Aliases for the word that a register points at and the one behind it. -/
def sampleTable : AliasTable := defineIndexed {} .r1 0 ["$a".toList, "$b".toList]

/-- Instructions that make room for two words, push one, and pop two into another register. -/
def sampleInsts : List Inst :=
  [⟨.copy, .reg .r1, .reg .r1, -2, 0, .always, false⟩,
   ⟨.copy, .mem .r1, .mem .r1, 3, 0, .always, true⟩,
   ⟨.copy, .mem .r1, .reg .r2, 0, 0, .always, true⟩,
   ⟨.compute .add, .mem .r1, .reg .r2, 0, 0, .always, true⟩]

theorem eq_of_tracks_sampleTable (h : sampleTable.Tracks r) : r = .r1 := by
  obtain ⟨name, offset, hget⟩ := h
  have hentry : ∀ e ∈ sampleTable.entries, ∀ s k, e.2 = .tracked s k → s = .r1 := by
    simp [sampleTable, defineIndexed, insert]
  obtain ⟨e, he, htracked⟩ := Option.map_eq_some_iff.mp hget
  exact hentry e (List.mem_of_find?_eq_some he) r offset htracked

/-- On a machine that was just started the second alias stands for the word at address 1. The
pointer ends one below where it began, so it takes an offset of two to get there. -/
theorem locates_foldl_track_four :
    ∃ m, Machine.start [] = .ok m ∧
      ((sampleInsts.map Inst.asWritten).foldl track sampleTable).get? "$b".toList
        = some (.tracked .r1 2) ∧
      (sampleInsts.foldl Machine.exec m).cpu.regs.get .r1 + 2 = 1 := by
  obtain ⟨m, hm⟩ := @Machine.exists_start [] (by simp)
  have hget : ((sampleInsts.map Inst.asWritten).foldl track sampleTable).get? "$b".toList
      = some (.tracked .r1 2) := by
    decide +kernel
  have hbefore : sampleTable.Locates m.cpu.regs "$b".toList .r1 1 := by
    refine ⟨1, by decide, ?_⟩
    rw [Machine.regs_start hm]
    rfl
  have hmoves : ∀ i ∈ sampleInsts, ∀ r, sampleTable.Tracks r → i.MovesOnly r := by
    intro i hi r hr
    rw [eq_of_tracks_sampleTable hr]
    revert i
    decide
  obtain ⟨offset, hoffset, haddr⟩ :=
    (locates_foldl_track rfl (by decide) hmoves 4 "$b".toList .r1 1).mpr hbefore
  obtain ⟨-, rfl⟩ := Alias.tracked.inj (Option.some.inj (hget.symm.trans hoffset))
  exact ⟨m, hm, hget, haddr⟩

end AliasTable

end Assembly

end WordMachine
