import WordMachine.Assembly.Listing
import WordMachine.Assembly.Placement
import WordMachine.Image

/-!
# Assembly

A source is assembled in two passes. The first places every statement, and so gives every label its
address. The second writes the words, with those addresses at hand. If a line fails in the first
pass, or a label is defined twice, there is no second one. Failures are collected in either pass,
and any failure at all means that there is no program.

## Main statements

* `assemble_words`: the words of an assembled program are those of its statements, in order
-/

namespace WordMachine

namespace Assembly

/-- An assembled program. -/
structure Program where
  words : List Word
  labels : LabelMap
  /-- The number of lines with an operation on them. -/
  codeLines : Nat

/-- The addresses of labels as far as they have been defined. -/
structure Definitions where
  labels : LabelMap := ∅
  /-- The repeated definitions, latest first. -/
  failures : List Failure := []

namespace Definitions

/-- Takes note of a label, if the statement defines one. -/
def add (d : Definitions) (u : Placed) : Definitions :=
  match u.stmt.val with
  | .label name =>
    let failures := if d.labels.contains name
      then u.failure (.duplicateLabel name.text) :: d.failures else d.failures
    ⟨d.labels.insert name (UInt16.ofNat u.address), failures⟩
  | _ => d

/-- The labels that the statements define. -/
def ofUnits (us : List Placed) : Definitions := us.foldl add {}

end Definitions

/-- What becomes of a statement in the second pass. -/
structure Emitted where
  words : List Word := []
  entry : Option Entry := none
  failures : List Failure := []

/-- The words of items of data from an address on, and what is wrong with the items that have none.
Both are put behind what went before, latest first. -/
def emitItems (labels : LabelMap) (address : Nat) (words : List Word) (errors : List LineError) :
    List DataItem → List Word × List LineError
  | [] => (words.reverse, errors.reverse)
  | item :: rest =>
    match item.resolve labels (UInt16.ofNat address) with
    | .ok ws => emitItems labels (address + item.size) (ws.reverse ++ words) errors rest
    | .error e => emitItems labels (address + item.size) words (e :: errors) rest

/-- What becomes of a statement once labels have addresses. -/
def Placed.emit (labels : LabelMap) (u : Placed) : Emitted :=
  let address : Word := UInt16.ofNat u.address
  match u.stmt.val with
  | .label _ => {}
  | .op op =>
    match op.encode labels address with
    | .ok word => { words := [word], entry := some (.inst address word u.line u.source) }
    | .error e => { failures := [u.failure e] }
  | .data items =>
    let emitted := emitItems labels u.address [] [] items
    { words := emitted.1
      entry := some (.data address emitted.1.length)
      failures := emitted.2.map u.failure }

/-- The program of a source, or all that is wrong with it, and the listing as far as it came. -/
def assemble (source : List Char) : Except (List Failure) Program × List Entry :=
  let placement := Placement.ofSource source
  let units := placement.units.reverse
  let definitions := Definitions.ofUnits units
  let failures := placement.failures.reverse ++ definitions.failures.reverse
  if failures.isEmpty then
    let emitted := units.map (·.emit definitions.labels)
    let listing := .header :: emitted.filterMap (·.entry)
    let failures := emitted.flatMap (·.failures)
    if failures.isEmpty then
      (.ok ⟨emitted.flatMap (·.words), definitions.labels, placement.codeLines⟩, listing)
    else (.error failures, listing)
  else (.error failures, [])

/-- The program of a source. -/
def assemble? (source : List Char) : Except (List Failure) Program := (assemble source).1

/-- The image of a source's program. -/
def assembleImage? (source : List Char) : Except (List Failure) (List UInt8) :=
  (assemble? source).map fun p => Image.bytes p.words

theorem assemble_words {source : List Char} {p : Program} (h : assemble? source = .ok p) :
    p.words = (Placement.ofSource source).units.reverse.flatMap
      fun u => (u.emit p.labels).words := by
  unfold assemble? assemble at h
  dsimp only at h
  split at h
  · split at h
    · cases h
      exact List.flatMap_map _ _ _
    · cases h
  · cases h

end Assembly

end WordMachine
