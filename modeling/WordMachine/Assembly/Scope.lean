import WordMachine.Assembly.Label

/-!
# Open blocks

Blocks nest. Each is given the next number when it is opened, and from then on its two ends have
labels. What `loop` and `break` refer to is the innermost block still open; a name, which plain
blocks leave empty, lets one be closed out of turn.

The readers of lines are written for any way of keeping blocks (`BlockKeeper`). Where nothing else
is said, the blocks that are open are kept on their own (`Scopes`).

## Main statements

* `Scopes.pop?_push`: the block that was opened last is the one to be closed
-/

namespace WordMachine

namespace Assembly

/-- A way of keeping the blocks of a source. -/
class BlockKeeper (σ : Type) where
  /-- What is kept before the first block. -/
  empty : σ
  /-- Opens a block of a name, and gives the label of its start. -/
  push : σ → List Char → Label × σ
  /-- Closes the innermost open block of a name, and gives the label of its end. -/
  pop? : σ → List Char → Except LineError (Label × σ)
  /-- The labels of the innermost open block's start and end. -/
  (start? end? : σ → Except LineError Label)

/-- A block that has been opened and not closed. -/
structure Scope where
  id : Nat
  name : List Char
  deriving DecidableEq, Repr, Inhabited

/-- The blocks of the source so far. -/
structure Scopes where
  /-- How many blocks have been opened in all. -/
  count : Nat := 0
  /-- The blocks that are open, innermost first. -/
  pending : List Scope := []
  deriving DecidableEq, Repr, Inhabited

namespace Scopes

/-- Opens a block, and gives the label of its start. -/
def push (s : Scopes) (name : List Char) : Label × Scopes :=
  (.blockStart (s.count + 1), ⟨s.count + 1, ⟨s.count + 1, name⟩ :: s.pending⟩)

/-- Closes the innermost open block of a name, and gives the label of its end. -/
def pop? (s : Scopes) (name : List Char) : Except LineError (Label × Scopes) :=
  match s.pending.find? (·.name == name) with
  | none => .error .unbalancedBlock
  | some scope => .ok (.blockEnd scope.id, { s with pending := s.pending.eraseP (·.name == name) })

/-- The label of the innermost open block's start. -/
def start? (s : Scopes) : Except LineError Label :=
  match s.pending with
  | [] => .error .unbalancedBlock
  | scope :: _ => .ok (.blockStart scope.id)

/-- The label of the innermost open block's end. -/
def end? (s : Scopes) : Except LineError Label :=
  match s.pending with
  | [] => .error .unbalancedBlock
  | scope :: _ => .ok (.blockEnd scope.id)

/-- The blocks that are open, kept on their own. -/
@[default_instance]
instance keeper : BlockKeeper Scopes := ⟨{}, push, pop?, start?, end?⟩

@[simp] theorem keeper_push (s : Scopes) (name : List Char) :
    BlockKeeper.push s name = s.push name := rfl

@[simp] theorem keeper_pop? (s : Scopes) (name : List Char) :
    BlockKeeper.pop? s name = s.pop? name := rfl

@[simp] theorem keeper_start? (s : Scopes) : BlockKeeper.start? s = s.start? := rfl

@[simp] theorem keeper_end? (s : Scopes) : BlockKeeper.end? s = s.end? := rfl

theorem pop?_push (s : Scopes) (name : List Char) :
    (s.push name).2.pop? name =
      .ok (.blockEnd (s.count + 1), ⟨s.count + 1, s.pending⟩) := by
  simp [push, pop?]

end Scopes

end Assembly

end WordMachine
