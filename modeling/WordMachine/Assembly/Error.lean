import WordMachine.Isa.Layout
import WordMachine.Text.Line

/-!
# Diagnostics

What can be wrong with a line of source, and where. An error is a cause; its wording stands in
`LineError.message` and nowhere else. A `Failure` is a broken line together with its error, and an
assembly that fails reports all of them.
-/

namespace WordMachine

namespace Assembly

/-- A place in the source: a line and a character of it, both counted from 1. -/
structure Loc where
  line : Nat
  col : Nat
  deriving DecidableEq, Repr, Inhabited

/-- Something that stands at a place in the source. -/
structure Located (α : Type) where
  loc : Loc
  val : α
  deriving DecidableEq, Repr, Inhabited

namespace Located

variable {α β : Type}

/-- Another thing at the same place. -/
def withVal (x : Located α) (b : β) : Located β := ⟨x.loc, b⟩

end Located

/-- A piece of source text at its place. -/
abbrev Token := Located (List Char)

/-- The ways in which a line can fail to have the form of any line. -/
inductive SyntaxFault where
  /-- An inline comment has no end. -/
  | openComment
  /-- A label has no name. -/
  | emptyLabel
  /-- A label is named like the mark of a block. -/
  | reservedLabel
  /-- A label's name has a dot or a colon in it. -/
  | punctuatedLabel
  /-- An immediate has no operand before it. -/
  | strayImmediate
  /-- There are not two operands. -/
  | operandCount
  /-- A compute does not say what to compute. -/
  | missingAluOp
  /-- A run of data does not fill its last word. -/
  | raggedData
  /-- Something among data is neither data nor a reference. -/
  | badDataItem
  /-- Something follows the mark of a block. -/
  | crowdedBlock
  /-- Something follows the definition of a label. -/
  | crowdedLabel
  /-- The line begins with nothing that a line begins with. -/
  | unknownLine
  /-- An alias is declared under a name that is none. -/
  | badAliasName
  /-- An alias is declared for nothing. -/
  | missingAliased
  /-- Nothing is assigned. -/
  | missingAssigned
  /-- Something other than an operation is assigned. -/
  | badAssigned
  /-- A call has not exactly one stack. -/
  | callStack
  /-- The stack of a call is malformed. -/
  | stackForm
  /-- The callee of a call is malformed. -/
  | calleeForm
  /-- The program has outgrown the addresses. -/
  | tooLong
  deriving DecidableEq, Repr, Inhabited

/-- The wording of a syntax fault. -/
def SyntaxFault.message : SyntaxFault → String
  | openComment => "unterminated inline comment"
  | emptyLabel => "label names must have nonzero length"
  | reservedLabel => "label names may not begin with a block marker"
  | punctuatedLabel => "label names may not contain '.' or ':'"
  | strayImmediate => "an immediate must directly follow its operand"
  | operandCount => "expected a source and a destination operand"
  | missingAluOp => "missing ALU operation"
  | raggedData => "data must be a whole number of 16-bit words"
  | badDataItem => "expected hex data or a label reference"
  | crowdedBlock => "block markers stand alone"
  | crowdedLabel => "label definitions stand alone"
  | unknownLine => "expected a label, a block marker, data, or an operation"
  | badAliasName => "alias names begin with '$' or '&'"
  | missingAliased => "missing aliased operand"
  | missingAssigned => "missing assigned operation"
  | badAssigned => "only an operation can be assigned"
  | callStack => "a call needs exactly one stack operand"
  | stackForm => "expected stack[words]"
  | calleeForm => "expected label(arguments)"
  | tooLong => "program does not fit in the address space"

/-- What is wrong with a line. The text is the piece of it that is to blame. -/
inductive LineError where
  | malformed (text : List Char) (fault : SyntaxFault)
  | invalidOperand (text : List Char)
  | invalidRegister (text : List Char)
  | invalidDestination (text : List Char)
  | immediateOutOfRange (range : Range) (value : Int)
  | unresolvedLabel (name : List Char)
  | duplicateModifier (text : List Char)
  /-- A block is closed or referred to where none is open. -/
  | unbalancedBlock
  | invalidStackOperand (text : List Char)
  | duplicateLabel (name : List Char)
  deriving DecidableEq, Repr, Inhabited

/-- The wording of an error. -/
def LineError.message : LineError → String
  | malformed t f => "Syntax error at '" ++ String.ofList t ++ "': " ++ f.message
  | invalidOperand t => "Invalid operand: '" ++ String.ofList t ++ "'"
  | invalidRegister t => "Invalid register: '" ++ String.ofList t ++ "'"
  | invalidDestination t => "Invalid destination: '" ++ String.ofList t ++ "'"
  | immediateOutOfRange r v =>
    "Immediate " ++ toString v ++ " out of range, must be between " ++ toString r.low ++ " and "
      ++ toString r.high
  | unresolvedLabel n => "Unresolved label: '" ++ String.ofList n ++ "'"
  | duplicateModifier t => "Duplicate modifier: '" ++ String.ofList t ++ "'"
  | unbalancedBlock => "No open block for label context"
  | invalidStackOperand t =>
    "Invalid stack operand, memory register expected: '" ++ String.ofList t ++ "'"
  | duplicateLabel n => "Duplicate label: '" ++ String.ofList n ++ "'"

/-- The answer of a pass over part of a line. -/
abbrev Checked (α : Type) := Except (Located LineError) α

/-- A broken line. -/
structure Failure where
  line : Nat
  source : List Char
  error : Located LineError
  deriving DecidableEq, Repr, Inhabited

/-- A failure in two lines of text: the error with its place, and the broken line. -/
def Failure.message (f : Failure) : String :=
  "@(line: " ++ toString f.error.loc.line ++ ", col: " ++ toString f.error.loc.col ++ "): "
    ++ f.error.val.message ++ "\n    " ++ String.ofList (Text.trimEnd f.source)

/-- The report of a failed assembly. -/
def report (failures : List Failure) : String :=
  failures.foldl (fun text f => text ++ "\n" ++ f.message)
    ("Assembly Error: " ++ toString failures.length ++ " line(s) failed to compile")

/-- An immediate that has to lie in a range. -/
def checkRange (r : Range) (value : Int) : Except LineError Int :=
  if r.contains value then .ok value else .error (.immediateOutOfRange r value)

/-- Gives an error the place of a token. -/
def at? {α : Type} (tk : Token) (r : Except LineError α) : Checked α := r.mapError tk.withVal

end Assembly

end WordMachine
