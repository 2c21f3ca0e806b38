import WordMachine.Proofs.Operations

/-!
# Errors without a place

Two readers could in principle complain about nothing in particular. An operation whose line says
nothing of an immediate has a zero there, and what is checked is that zero. Digits that are left
over at the end of a line of data are put down to its last token, and there may be none. So a reader
may allow for things without a place (`Noted`), and have their errors shown in the first column of
the line.

Neither ever happens. Zero is in the range of every immediate (`Layout.zero_mem_sourceRange`,
`Layout.zero_mem_destinationRange`), and where there is no token there are no digits. This file
writes both readers down with all that they allow for (`Draft.completeNoted`,
`DataDraft.readNoted`), and shows that they do what `Draft.complete` and `readData` do, whose errors
all have a place.

## Main results

* `Draft.completeNoted_eq`, `DataDraft.readNoted_eq`: the two readers
* `Noted.placed_noted`: where an error has a place, it is shown there
-/

namespace WordMachine

namespace Assembly

/-- Something that may have a place in the source. -/
structure Noted (α : Type) where
  loc? : Option Loc
  val : α
  deriving DecidableEq, Repr

namespace Noted

variable {α β : Type}

/-- Another thing at the same place, if there is one. -/
def withVal (x : Noted α) (b : β) : Noted β := ⟨x.loc?, b⟩

/-- Something that has no place. -/
def unplaced (a : α) : Noted α := ⟨none, a⟩

/-- What is shown for the place of something on a line. -/
def placed (x : Noted α) (line : Nat) : Located α := ⟨x.loc?.getD ⟨line, 1⟩, x.val⟩

end Noted

/-- Something with a place, among things that may have none. -/
def Located.noted {α : Type} (x : Located α) : Noted α := ⟨some x.loc, x.val⟩

/-- **What has a place is shown there**, and not in the first column. -/
@[simp] theorem Noted.placed_noted {α : Type} (x : Located α) (line : Nat) :
    x.noted.placed line = x := rfl

/-- The answer of a pass, with errors that may have no place. -/
abbrev CheckedNoted (α : Type) := Except (Noted LineError) α

/-- The answer of a pass whose errors all have a place. -/
def Checked.noted {α : Type} (x : Checked α) : CheckedNoted α := x.mapError Located.noted

theorem Checked.noted_bind {α β : Type} {x : Checked α} {g : α → Checked β}
    {g' : α → CheckedNoted β} (hg : ∀ a, g' a = (g a).noted) :
    x.noted >>= g' = (x >>= g).noted := by
  cases x with
  | error e => rfl
  | ok a => exact hg a

/-! ### Operations -/

namespace Draft

/-- The immediate that a line gives, or else a zero that stands nowhere. -/
def immOrZero : Option (Token × Imm) → Noted Imm
  | some (tk, i) => ⟨some tk.loc, i⟩
  | none => .unplaced .zero

/-- Checks an immediate against its range, whether it was given or not. -/
def checkNoted (range : Range) (imm : Noted Imm) : CheckedNoted Unit :=
  match imm.val with
  | .num value => ((checkRange range value).map fun _ => ()).mapError imm.withVal
  | .ref _ => .ok ()

/-- Refuses an immediate other than zero where there is no room for one. The text to blame is empty
where no immediate was given. -/
def checkRoomNoted (layout : Layout) (raw : Option (List Char)) (imm : Noted Imm) :
    CheckedNoted Unit :=
  if imm.val ≠ .zero ∧ layout.destinationRange? = none then
    .error (imm.withVal (.invalidOperand (raw.getD [])))
  else .ok ()

/-- The operation of a draft in which nothing is missing but immediates. -/
def completeNoted (d : Draft) (cls : Class) (mnemonic : Token) : CheckedNoted Operation := do
  let (src, dst) ← (d.sides mnemonic).noted
  let opcode ← (d.opcode cls mnemonic).noted
  let source ← (sourceOf src).noted
  let destination ← (destinationOf dst).noted
  let push ← (pushes (source.isMem || destination.isMem) d.push).noted
  let layout := Layout.of cls source destination
  let srcImm := immOrZero d.srcImm
  let dstImm := immOrZero d.dstImm
  checkRoomNoted layout (d.dstImm.map (·.1.val)) dstImm
  checkNoted layout.sourceRange srcImm
  checkNoted layout.destinationRange dstImm
  return {
    opcode := opcode
    src := source
    dst := destination
    srcImm := srcImm.val
    dstImm := dstImm.val
    effect := d.effect.getD .always
    push := push }

theorem val_immOrZero (slot : Option (Token × Imm)) :
    (immOrZero slot).val = (slot.map (·.2)).getD .zero := by
  rcases slot with _ | ⟨tk, i⟩ <;> rfl

/-- A missing immediate passes the check of its range, and one that is given is where it is. -/
theorem checkNoted_immOrZero {range : Range} (hzero : 0 ∈ range) (slot : Option (Token × Imm)) :
    checkNoted range (immOrZero slot) = (checkImm range slot).noted := by
  rcases slot with _ | ⟨tk, value | ref⟩
  · have hcheck : checkRange range 0 = .ok 0 := if_pos hzero
    change ((checkRange range 0).map fun _ => ()).mapError _ = _
    rw [hcheck]
    rfl
  · change ((checkRange range value).map fun _ => ()).mapError _ =
      (((checkRange range value).map fun _ => ()).mapError _).mapError _
    cases checkRange range value <;> rfl
  · rfl

/-- A missing immediate takes no room. -/
theorem checkRoomNoted_immOrZero (layout : Layout) (slot : Option (Token × Imm)) :
    checkRoomNoted layout (slot.map (·.1.val)) (immOrZero slot) =
      (checkRoom layout slot).noted := by
  rcases slot with _ | ⟨tk, i⟩
  · exact if_neg fun h => h.1 rfl
  · by_cases hroom : i ≠ .zero ∧ layout.destinationRange? = none
    · have hcheck : checkRoom layout (some (tk, i)) =
          .error (tk.withVal (.invalidOperand tk.val)) := if_pos hroom
      rw [hcheck]
      exact if_pos hroom
    · have hcheck : checkRoom layout (some (tk, i)) = .ok () := if_neg hroom
      rw [hcheck]
      exact if_neg hroom

/-- **Missing immediates are never complained about.** An operation is completed as if nothing were
checked but what stands on its line, and its errors have the places of that. -/
theorem completeNoted_eq (d : Draft) (cls : Class) (mnemonic : Token) :
    d.completeNoted cls mnemonic = (d.complete cls mnemonic).noted := by
  refine Checked.noted_bind fun ⟨src, dst⟩ => Checked.noted_bind fun opcode =>
    Checked.noted_bind fun source => Checked.noted_bind fun destination =>
    Checked.noted_bind fun push => ?_
  dsimp only
  rw [checkRoomNoted_immOrZero, checkNoted_immOrZero (Layout.zero_mem_sourceRange ..),
    checkNoted_immOrZero (Layout.zero_mem_destinationRange ..), val_immOrZero, val_immOrZero]
  exact Checked.noted_bind fun _ => Checked.noted_bind fun _ => Checked.noted_bind fun _ => rfl

end Draft

/-! ### Lines of data -/

namespace DataDraft

/-- Reads the tokens of a line behind the last one before them, where there is one. -/
def readNoted (d : DataDraft) (last : Option Token) : List Token → CheckedNoted (List DataItem)
  | [] => (d.flush.mapError fun e => ⟨last.map (·.loc), e⟩).map fun d => d.items.reverse
  | tk :: rest => do
    let d ← (at? tk (d.add tk.val)).noted
    d.readNoted (some tk) rest

theorem readNoted_some (d : DataDraft) (last : Token) (tokens : List Token) :
    d.readNoted (some last) tokens = (d.read last tokens).noted := by
  induction tokens generalizing d last with
  | nil =>
    rw [readNoted, read]
    cases d.flush <;> rfl
  | cons tk rest ih => exact Checked.noted_bind fun d => ih d tk

/-- **No digits are left over without a token.** A line of data is read from the first of its tokens
on as it is read from its mark on. -/
theorem readNoted_eq (mark : Token) (tokens : List Token) :
    ({} : DataDraft).readNoted none tokens = (readData mark tokens).noted := by
  cases tokens with
  | nil => rfl
  | cons tk rest => exact Checked.noted_bind fun d => d.readNoted_some tk rest

end DataDraft

end Assembly

end WordMachine
