import WordMachine.Assembly.Operand
import WordMachine.Assembly.Statement

/-!
# Aliases

An alias begins with `$` or `&` and stands for other tokens. A direct alias always stands for the
same ones. A tracked alias stands for a place in memory a number of words from where a register
points, and that number follows the register: when an operation moves the pointer, the offset moves
the other way. Aliases are text, so one may read differently at two places of a program.

Offsets are kept in 32 bits. A shift that leaves that range wraps around; a sum that the source asks
for is refused.

## Main statements

* `AliasTable.get?_insert`: what an alias stands for is what it was last given
* `AliasTable.get?_shift`: a shift moves the tracked aliases of its register, and nothing else
-/

namespace WordMachine

namespace Assembly

/-- What an alias stands for. -/
inductive Alias where
  /-- The words of a text, as they are. -/
  | direct (text : List Char)
  /-- The word at an offset from where a register points. -/
  | tracked (reg : Reg) (offset : Int)
  deriving DecidableEq, Repr, Inhabited

namespace Alias

/-- Whether a token is an alias. -/
def isName (t : List Char) : Bool := t.head? == some '$' || t.head? == some '&'

/-- The residue of an offset that is kept, which is a number of 32 bits with a sign. -/
def wrap (offset : Int) : Int := Int.bmod offset 4294967296

/-- The sum of two offsets, where it can be kept as it is. -/
def add? (a b : Int) : Option Int :=
  if -2147483648 ≤ a + b ∧ a + b ≤ 2147483647 then some (a + b) else none

/-- What an alias stands for once `delta` has been added to the offsets from a register. -/
def shift (r : Reg) (delta : Int) : Alias → Alias
  | tracked reg offset =>
    if reg = r then tracked reg (wrap (offset + delta)) else tracked reg offset
  | direct text => direct text

end Alias

/-- The memory operand of a register, as a token. -/
def memText (r : Reg) : List Char := (Source.mem r).text

/-- A register, as a token. -/
def regText (r : Reg) : List Char := (Source.reg r).text

/-- The aliases that have been declared, each with what it stands for now. -/
structure AliasTable where
  entries : List (List Char × Alias) := []
  deriving DecidableEq, Repr, Inhabited

namespace AliasTable

/-- What an alias stands for. -/
def get? (t : AliasTable) (name : List Char) : Option Alias :=
  (t.entries.find? fun e => e.1 == name).map (·.2)

/-- Makes an alias stand for something, whatever it stood for before. -/
def insert (t : AliasTable) (name : List Char) (a : Alias) : AliasTable :=
  ⟨(name, a) :: t.entries.filter fun e => !(e.1 == name)⟩

/-- The form of a name for values. -/
def valueName (name : List Char) : List Char := '$' :: name.tail

/-- The form of a name for registers. -/
def refName (name : List Char) : List Char := '&' :: name.tail

/-- Declares an alias for an operand. One that reads like a register or a memory operand declares
both forms of the name, the one for memory and the one for the register. -/
def define (t : AliasTable) (name operand : List Char) : AliasTable :=
  match splitKind? operand with
  | some (value, kind) =>
    if kind = "mem".toList ∨ kind = "reg".toList then
      (t.insert (valueName name) (.direct (value ++ ".mem".toList))).insert (refName name)
        (.direct (value ++ ".reg".toList))
    else t.insert name (.direct operand)
  | none => t.insert name (.direct operand)

/-- Declares aliases for words that follow one another, from `offset` words behind where a register
points. -/
def defineIndexed (t : AliasTable) (r : Reg) (offset : Int) : List (List Char) → AliasTable
  | [] => t
  | name :: rest => (t.insert name (.tracked r offset)).defineIndexed r (offset + 1) rest

/-- Declares an alias for the destination of an operation. -/
def bind (t : AliasTable) (name : List Char) (dst : Destination) (offset : Int) : AliasTable :=
  match dst with
  | .mem r =>
    (t.insert (valueName name) (.tracked r offset)).insert (refName name) (.direct (regText r))
  | dst => t.insert name (.direct dst.text)

/-- Adds to the offsets from a register. -/
def shift (t : AliasTable) (r : Reg) (delta : Int) : AliasTable :=
  ⟨t.entries.map fun e => (e.1, e.2.shift r delta)⟩

/-- Follows the pointers that an operation moves: a push moves one down by a word, a pop moves one
up, and a copy of a register to itself moves it by the immediate. -/
def track (t : AliasTable) (op : Operation) : AliasTable :=
  match op.src, op.dst, op.push with
  | _, .mem r, true => t.shift r 1
  | .mem r, _, true => t.shift r (-1)
  | .reg a, .reg b, _ =>
    if a = b ∧ op.opcode = .copy then
      match op.srcImm with
      | .num k => t.shift a (-k)
      | .ref _ => t
    else t
  | _, _, _ => t

/-- The register of a memory operand, which may be written as an alias of one. -/
def stackReg? (t : AliasTable) (raw : List Char) : Except LineError Reg :=
  let text : Except LineError (List Char) := match t.get? raw with
    | some (.direct text) => .ok text
    | some (.tracked r offset) =>
      if offset = 0 then .ok (memText r) else .error (.invalidStackOperand raw)
    | none => .ok raw
  text.bind fun text =>
    match Operand.ofToken? text with
    | some (.mem r) => .ok r
    | _ => .error (.invalidStackOperand text)

/-- The register that indexed aliases count from: the one of a memory operand, or a register. -/
def baseReg? (t : AliasTable) (raw : List Char) : Except LineError Reg :=
  let text := match t.get? raw with
    | some (.direct text) => text
    | _ => raw
  match splitKind? text with
  | some (value, kind) =>
    if kind = "reg".toList then t.stackReg? (value ++ ".mem".toList) else t.stackReg? raw
  | none => t.stackReg? raw

/-- The tokens of a memory operand at an offset, in the place of another token. -/
def trackedTokens (tk : Token) (r : Reg) (offset : Int) : List Token :=
  tk.withVal (memText r) :: if offset = 0 then [] else [tk.withVal (immText offset)]

/-- Puts what they stand for in the place of all aliases, behind the tokens `done`, latest first. A
numeric immediate behind a tracked alias is added to its offset. -/
def substituteAfter (t : AliasTable) (done : List Token) : List Token → Checked (List Token)
  | [] => .ok done.reverse
  | tk :: rest =>
    if Alias.isName tk.val then
      match t.get? tk.val with
      | none => .error (tk.withVal (.invalidOperand tk.val))
      | some (.direct text) =>
        t.substituteAfter (((Text.words text).map tk.withVal).reverse ++ done) rest
      | some (.tracked r offset) =>
        match rest with
        | [] => t.substituteAfter ((trackedTokens tk r offset).reverse ++ done) []
        | next :: rest =>
          match numericImm? next.val with
          | none => t.substituteAfter ((trackedTokens tk r offset).reverse ++ done) (next :: rest)
          | some k =>
            match Alias.add? offset k with
            | none => .error (next.withVal (.invalidOperand next.val))
            | some sum => t.substituteAfter ((trackedTokens tk r sum).reverse ++ done) rest
    else t.substituteAfter (tk :: done) rest

/-- Puts what they stand for in the place of all aliases. -/
def substitute (t : AliasTable) (tokens : List Token) : Checked (List Token) :=
  t.substituteAfter [] tokens

theorem get?_insert (t : AliasTable) (name other : List Char) (a : Alias) :
    (t.insert name a).get? other = if name = other then some a else t.get? other := by
  by_cases h : name = other
  · simp [get?, insert, h]
  · simp only [get?, insert, List.find?_cons, beq_false_of_ne h, List.find?_filter, h, if_false]
    congr 2
    funext e
    by_cases he : e.1 = other
    · simp [he, Ne.symm h]
    · simp [he]

theorem get?_shift (t : AliasTable) (r : Reg) (delta : Int) (name : List Char) :
    (t.shift r delta).get? name = (t.get? name).map (Alias.shift r delta) := by
  simp [get?, shift, List.find?_map, Function.comp_def]

end AliasTable

end Assembly

end WordMachine
