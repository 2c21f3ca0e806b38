import WordMachine.Assembly.Operand
import WordMachine.Assembly.Scope
import WordMachine.Assembly.Statement

/-!
# Lines of code

The tokens behind `copy` or `compute` say one thing each: an operand, an immediate, an effect, a
push, or the operation to compute. What a token says (`Part`) depends on nothing but the token and
the open blocks. The parts are put together in order in a `Draft`, in which an immediate belongs to
the operand before it; the other parts may stand anywhere. A draft with everything in it is
completed to an operation.

## Main statements

* `Draft.add_operands_le`: a draft never takes a third operand
-/

namespace WordMachine

namespace Assembly

variable {σ : Type} [BlockKeeper σ]

/-- What one token of a line of code says. -/
inductive Part where
  | operand (o : Operand)
  | imm (i : Imm)
  | effect (e : Effect)
  | push (on : Bool)
  | alu (op : AluOp)
  deriving DecidableEq, Repr, Inhabited

/-- Reads the value of an immediate. A numeral is a number, `loop` and `break` are the ends of the
innermost block, and everything else has to be a name. -/
def Imm.read? (value : List Char) (kind : RefKind) (scopes : σ) : Except LineError Imm :=
  match Numeral.read? value with
  | some i => .ok (.num i)
  | none => do
    let label ← if value = "loop".toList then BlockKeeper.start? scopes
      else if value = "break".toList then BlockKeeper.end? scopes
      else Label.read? value
    return .ref ⟨label, kind⟩

/-- Reads a token of a line of code. -/
def Part.read? (cls : Class) (scopes : σ) (t : List Char) : Except LineError Part :=
  if t = "push".toList ∨ t = "pop".toList then .ok (.push true)
  else match splitKind? t with
    | none => .error (.invalidOperand t)
    | some (value, kind) =>
      if kind = "reg".toList ∨ kind = "mem".toList ∨ kind = "val".toList then
        match Operand.read? value kind with
        | some o => .ok (.operand o)
        | none => .error (.invalidRegister t)
      else if kind = "eff".toList then
        match Numeral.read? value with
        | some i =>
          match if 0 ≤ i then Effect.ofCode? (Word.ofInt i).toNat else none with
          | some e => .ok (.effect e)
          | none => .error (.invalidOperand t)
        | none => .error (.invalidOperand t)
      else if kind = "push".toList then
        match Numeral.read? value with
        | some 0 => .ok (.push false)
        | some 1 => .ok (.push true)
        | _ => .error (.invalidOperand t)
      else if kind = "op".toList ∧ cls = .compute then
        -- A mnemonic may look like a numeral: `add` has three digits in it.
        match AluOp.ofName? (value.map Char.toLower)
            <|> (Numeral.read? value).bind AluOp.ofCode? with
        | some op => .ok (.alu op)
        | none => .error (.invalidOperand t)
      else match RefKind.read? kind with
        | some refKind => (Imm.read? value refKind scopes).map .imm
        | none => .error (.invalidOperand t)

/-- A line of code as far as it has been read. Where an error may have to point at a part later on,
its token is kept beside it. -/
structure Draft where
  operands : List (Token × Operand) := []
  srcImm : Option (Token × Imm) := none
  dstImm : Option (Token × Imm) := none
  effect : Option Effect := none
  push : Option (Token × Bool) := none
  alu : Option AluOp := none
  deriving DecidableEq, Repr, Inhabited

namespace Draft

/-- Fills a place that is filled at most once. -/
def once {α : Type} (slot : Option α) (a : α) (t : List Char) : Except LineError (Option α) :=
  if slot.isSome then .error (.duplicateModifier t) else .ok (some a)

/-- Puts one more part into a draft. -/
def add (d : Draft) (tk : Token) : Part → Except LineError Draft
  | .operand o =>
    if d.operands.length = 2 then .error (.invalidOperand tk.val)
    else .ok { d with operands := d.operands ++ [(tk, o)] }
  | .imm i =>
    match d.operands.length with
    | 1 => (once d.srcImm (tk, i) tk.val).map fun slot => { d with srcImm := slot }
    | 2 => (once d.dstImm (tk, i) tk.val).map fun slot => { d with dstImm := slot }
    | _ => .error (.malformed tk.val .strayImmediate)
  | .effect e => (once d.effect e tk.val).map fun slot => { d with effect := slot }
  | .push on => (once d.push (tk, on) tk.val).map fun slot => { d with push := slot }
  | .alu op => (once d.alu op tk.val).map fun slot => { d with alu := slot }

/-- Reads tokens into a draft. The first one that does not fit in is to blame. -/
def read (cls : Class) (scopes : σ) (d : Draft) : List Token → Checked Draft
  | [] => .ok d
  | tk :: rest => do
    let part ← at? tk (Part.read? cls scopes tk.val)
    let d ← at? tk (d.add tk part)
    d.read cls scopes rest

/-- Checks an immediate against its range, as far as it is a number. -/
def checkImm (range : Range) : Option (Token × Imm) → Checked Unit
  | some (tk, .num value) => at? tk ((checkRange range value).map fun _ => ())
  | _ => .ok ()

/-- The operand in front and the operand behind it, if there are these two and no others. -/
def sides (d : Draft) (mnemonic : Token) : Checked ((Token × Operand) × (Token × Operand)) :=
  match d.operands with
  | [src, dst] => .ok (src, dst)
  | _ => .error (mnemonic.withVal (.malformed mnemonic.val .operandCount))

/-- What is done with the source. A compute has to say so. -/
def opcode (d : Draft) (cls : Class) (mnemonic : Token) : Checked Opcode :=
  match cls, d.alu with
  | .copy, _ => .ok .copy
  | .compute, some op => .ok (.compute op)
  | .compute, none => .error (mnemonic.withVal (.malformed mnemonic.val .missingAluOp))

/-- The source that an operand is, or a complaint about its token. -/
def sourceOf (operand : Token × Operand) : Checked Source :=
  match operand.2.source? with
  | some source => .ok source
  | none => .error (operand.1.withVal (.invalidRegister operand.1.val))

/-- The destination that an operand is, or a complaint about its token. -/
def destinationOf (operand : Token × Operand) : Checked Destination :=
  match operand.2.destination? with
  | some destination => .ok destination
  | none => .error (operand.1.withVal (.invalidDestination operand.1.val))

/-- Whether a pointer moves. Pushing and popping move one, so there has to be one. -/
def pushes (hasMem : Bool) : Option (Token × Bool) → Checked Bool
  | some (tk, true) => if hasMem then .ok true else .error (tk.withVal (.invalidOperand tk.val))
  | _ => .ok false

/-- Refuses an immediate beside the destination where the layout has no room for one. -/
def checkRoom (layout : Layout) : Option (Token × Imm) → Checked Unit
  | some (tk, i) =>
    if i ≠ .zero ∧ layout.destinationRange? = none then
      .error (tk.withVal (.invalidOperand tk.val))
    else .ok ()
  | none => .ok ()

/-- The operation of a draft in which nothing is missing, behind the given mnemonic. -/
def complete (d : Draft) (cls : Class) (mnemonic : Token) : Checked Operation := do
  let (src, dst) ← d.sides mnemonic
  let opcode ← d.opcode cls mnemonic
  let source ← sourceOf src
  let destination ← destinationOf dst
  let push ← pushes (source.isMem || destination.isMem) d.push
  let layout := Layout.of cls source destination
  checkRoom layout d.dstImm
  checkImm layout.sourceRange d.srcImm
  checkImm layout.destinationRange d.dstImm
  return {
    opcode := opcode
    src := source
    dst := destination
    srcImm := (d.srcImm.map (·.2)).getD .zero
    dstImm := (d.dstImm.map (·.2)).getD .zero
    effect := d.effect.getD .always
    push := push }

theorem add_operands_le {d e : Draft} {tk : Token} {p : Part} (h : d.add tk p = .ok e)
    (hd : d.operands.length ≤ 2) : e.operands.length ≤ 2 := by
  cases p <;> simp only [add, once] at h
  case operand o =>
    split at h
    · cases h
    · cases h
      simp
      omega
  case imm i =>
    split at h
    · split at h <;> simp [Except.map] at h
      simpa [← h] using hd
    · split at h <;> simp [Except.map] at h
      simpa [← h] using hd
    · cases h
  all_goals
    split at h <;> simp [Except.map] at h
    simpa [← h] using hd

end Draft

/-- The operation that the tokens behind a mnemonic describe. -/
def readOperation (cls : Class) (scopes : σ) (mnemonic : Token) (rest : List Token) :
    Checked Operation := do
  let draft ← Draft.read cls scopes {} rest
  draft.complete cls mnemonic

end Assembly

end WordMachine
