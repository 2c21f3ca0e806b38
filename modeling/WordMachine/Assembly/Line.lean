import WordMachine.Assembly.Data
import WordMachine.Assembly.Operation

/-!
# Lines

The first token of a line says what the line is: the mark of a block's start or end, a line of
data, a line of code, or the definition of a label. Only the marks of blocks change the blocks that
are open.

## Main statements

* `readLine_nil`: a line without tokens is no statement
-/

namespace WordMachine

namespace Assembly

variable {σ : Type} [BlockKeeper σ]

/-- Refuses tokens where nothing may stand. -/
def expectNone (fault : SyntaxFault) : List Token → Checked Unit
  | [] => .ok ()
  | tk :: _ => .error (tk.withVal (.malformed tk.val fault))

/-- The name of the blocks that braces open and close. -/
def blockName : List Char := []

/-- The statement on a line, and the blocks open behind it. -/
def readLine (scopes : σ) : List Token → Checked (Option Statement × σ)
  | [] => .ok (none, scopes)
  | first :: rest =>
    if first.val = ['\x7b'] then do
      expectNone .crowdedBlock rest
      let (label, scopes) := BlockKeeper.push scopes blockName
      return (some (.label label), scopes)
    else if first.val = ['\x7d'] then do
      expectNone .crowdedBlock rest
      let (label, scopes) ← at? first (BlockKeeper.pop? scopes blockName)
      return (some (.label label), scopes)
    else if first.val = "%".toList then do
      let items ← readData first rest
      return (some (.data items), scopes)
    else if first.val = "copy".toList then do
      let op ← readOperation .copy scopes first rest
      return (some (.op op), scopes)
    else if first.val = "compute".toList then do
      let op ← readOperation .compute scopes first rest
      return (some (.op op), scopes)
    else match Text.dropFinal? ':' first.val with
      | some name => do
        expectNone .crowdedLabel rest
        let label ← at? first (Label.read? name)
        return (some (.label label), scopes)
      | none => .error (first.withVal (.malformed first.val .unknownLine))

theorem readLine_nil (scopes : σ) : readLine scopes [] = .ok (none, scopes) := rfl

end Assembly

end WordMachine
