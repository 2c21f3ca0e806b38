import WordMachine.Word

/-!
# Result flags

Every computed result leaves three flags: whether it overflowed, whether it is zero, and whether
its top bit is set. A flags word holds them in its three low bits and ignores the others.
-/

namespace WordMachine

/-- What is remembered of the last computed result. -/
structure Flags where
  overflow : Bool := false
  zero : Bool := false
  negative : Bool := false
  deriving DecidableEq, Repr, Inhabited

namespace Flags

/-- The flags of a result word. -/
def ofResult (val : Word) (overflow : Bool) : Flags :=
  { overflow := overflow, zero := val == 0, negative := val &&& 0x8000 != 0 }

/-- The flags held in the three low bits of a word. -/
def ofWord (w : Word) : Flags :=
  { overflow := w &&& 1 != 0, zero := w &&& 2 != 0, negative := w &&& 4 != 0 }

/-- The word that holds the flags, every other bit clear. -/
def toWord (f : Flags) : Word :=
  (if f.overflow then 1 else 0) ||| (if f.zero then 2 else 0) ||| if f.negative then 4 else 0

/-- One letter for each flag, a capital where it is set. -/
def text (f : Flags) : String :=
  String.ofList [if f.overflow then 'O' else 'o', if f.zero then 'Z' else 'z',
    if f.negative then 'N' else 'n']

@[simp] theorem ofWord_toWord (f : Flags) : ofWord f.toWord = f := by
  rcases f with ⟨_ | _, _ | _, _ | _⟩ <;> rfl

end Flags

end WordMachine
