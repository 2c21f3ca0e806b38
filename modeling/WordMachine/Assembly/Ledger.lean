import WordMachine.Assembly.Scope

/-!
# The ledger of blocks

Another way of keeping blocks: each is entered behind those before it when it is opened, and it
stays there when it is closed, with a mark that says so. The number of a block is its place, so no
count is kept. What is asked of a ledger is what is asked of `Scopes`, and it looks for the answer
from its end.

## Main statements

* `Ledger.pop?_push`: the block that was entered last is the one to be closed
-/

namespace WordMachine

namespace Assembly

/-- A block that has been opened, and whether it still is. -/
structure Block where
  id : Nat
  name : List Char
  isOpen : Bool
  deriving DecidableEq, Repr, Inhabited

namespace Block

/-- The block once it is closed. -/
def close (b : Block) : Block := { b with isOpen := false }

/-- Whether the end of a block of the given name may be the end of this one. -/
def answersTo (name : List Char) (b : Block) : Bool := b.isOpen && b.name == name

/-- Closes the last block that passes a test, and gives it as it was before. -/
def closeLast? (p : Block → Bool) : List Block → Option (Block × List Block)
  | [] => none
  | b :: rest =>
    match closeLast? p rest with
    | some (found, rest) => some (found, b :: rest)
    | none => if p b then some (b, b.close :: rest) else none

end Block

/-- All blocks of the source so far, in the order in which they were opened. -/
structure Ledger where
  blocks : List Block := []
  deriving DecidableEq, Repr, Inhabited

namespace Ledger

/-- Opens a block, and gives the label of its start. -/
def push (l : Ledger) (name : List Char) : Label × Ledger :=
  let id := l.blocks.length + 1
  (.blockStart id, ⟨l.blocks ++ [⟨id, name, true⟩]⟩)

/-- Closes the innermost open block of a name, and gives the label of its end. -/
def pop? (l : Ledger) (name : List Char) : Except LineError (Label × Ledger) :=
  match Block.closeLast? (Block.answersTo name) l.blocks with
  | none => .error .unbalancedBlock
  | some (b, blocks) => .ok (.blockEnd b.id, ⟨blocks⟩)

/-- The number of the innermost open block. -/
def innermost? (l : Ledger) : Except LineError Nat :=
  match l.blocks.reverse.find? Block.isOpen with
  | none => .error .unbalancedBlock
  | some b => .ok b.id

/-- The label of the innermost open block's start. -/
def start? (l : Ledger) : Except LineError Label := return .blockStart (← l.innermost?)

/-- The label of the innermost open block's end. -/
def end? (l : Ledger) : Except LineError Label := return .blockEnd (← l.innermost?)

/-- All blocks, kept in a ledger. -/
instance keeper : BlockKeeper Ledger := ⟨{}, push, pop?, start?, end?⟩

end Ledger

namespace Block

variable {p : Block → Bool} {bs : List Block}

theorem closeLast?_concat_of_pos {b : Block} (hb : p b = true) (bs : List Block) :
    closeLast? p (bs ++ [b]) = some (b, bs ++ [b.close]) := by
  induction bs with
  | nil => simp [closeLast?, hb]
  | cons c bs ih => simp [closeLast?, ih]

theorem closeLast?_eq_none_iff : closeLast? p bs = none ↔ ∀ b ∈ bs, p b = false := by
  induction bs with
  | nil => simp [closeLast?]
  | cons c bs ih =>
    rw [closeLast?, List.forall_mem_cons, ← ih]
    cases closeLast? p bs <;> simp

/-- The block that is closed passes the test, and no block behind it does. -/
theorem exists_of_closeLast? {b : Block} {bs' : List Block}
    (h : closeLast? p bs = some (b, bs')) :
    ∃ front back, bs = front ++ b :: back ∧ bs' = front ++ b.close :: back ∧ p b = true ∧
      ∀ c ∈ back, p c = false := by
  induction bs generalizing bs' with
  | nil => cases h
  | cons c bs ih =>
    rw [closeLast?] at h
    split at h
    · next found rest hrest =>
      obtain ⟨rfl, rfl⟩ := Prod.mk.inj (Option.some.inj h)
      obtain ⟨front, back, hsplit, hclosed, hpos, hback⟩ := ih hrest
      exact ⟨c :: front, back, by rw [hsplit, List.cons_append], by rw [hclosed, List.cons_append],
        hpos, hback⟩
    · next hrest =>
      split at h
      · next hpos =>
        obtain ⟨rfl, rfl⟩ := Prod.mk.inj (Option.some.inj h)
        exact ⟨[], bs, rfl, rfl, hpos, closeLast?_eq_none_iff.mp hrest⟩
      · cases h

end Block

theorem Ledger.pop?_push (l : Ledger) (name : List Char) :
    (l.push name).2.pop? name = .ok (.blockEnd (l.blocks.length + 1),
      ⟨l.blocks ++ [⟨l.blocks.length + 1, name, false⟩]⟩) := by
  rw [push, pop?, Block.closeLast?_concat_of_pos (by simp [Block.answersTo])]
  rfl

end Assembly

end WordMachine
