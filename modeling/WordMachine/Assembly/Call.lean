import WordMachine.Assembly.Alias

/-!
# Calls

A call line has the form `stack[words] <= label(argument, ...)`. On the machine it keeps `words`
words of the stack for the results, pushes the return address and then the arguments, and jumps to
the label; the callee pops the arguments and the return address before it comes back. `Call.lines`
writes this out, one line of code for each instruction.

Arguments are read with the aliases as they stand before the call. By the time that an argument is
pushed, the stack has moved, so one that is read through the stack pointer has to reach further.

## Main statements

* `Call.length_lines`: a call comes to a line for its kept words, if it keeps any, one for each
  argument, and two more
-/

namespace WordMachine

namespace Assembly

/-- A call as read. -/
structure Call where
  stack : Reg
  /-- How many words are kept for the results. -/
  kept : Nat
  label : List Char
  args : List (List Token)
  deriving DecidableEq, Repr, Inhabited

namespace Call

/-- The mark of a call. -/
def arrow : List Char := "<=".toList

/-- Reads the stack of a call and the number of words to be kept on it. -/
def readStack? (raw : List Char) : Except LineError (List Char × Nat) :=
  match Text.cutFirst? '[' raw with
  | none => .ok (raw, 0)
  | some (stack, rest) =>
    match (Text.dropFinal? ']' rest).bind Numeral.read? with
    | some kept =>
      if 0 ≤ kept ∧ kept ≤ 0xFFFF then .ok (stack, kept.toNat)
      else .error (.malformed raw .stackForm)
    | none => .error (.malformed raw .stackForm)

/-- Reads the label of a call and the texts of its arguments. -/
def readCallee? (raw : List Char) : Except LineError (List Char × List (List Char)) :=
  match Text.cutFirst? '(' raw with
  | none => .error (.malformed raw .calleeForm)
  | some (label, rest) =>
    match Text.dropFinal? ')' (Text.trimEnd rest) with
    | none => .error (.malformed raw .calleeForm)
    | some inner =>
      if (Text.trim label).isEmpty then .error (.malformed raw .calleeForm)
      else .ok (Text.trim label, Text.items inner)

/-- Reads a call from the tokens before and behind its arrow. -/
def read? (aliases : AliasTable) (lhs : List Token) (arrow : Token) (rhs : List Token) :
    Checked Call :=
  match lhs with
  | [stack] => do
    let (raw, kept) ← at? stack (readStack? stack.val)
    let reg ← at? stack (aliases.stackReg? raw)
    let (label, args) ← at? arrow (readCallee? (Text.unwords (rhs.map (·.val))))
    let args ← args.mapM fun arg => aliases.substitute ((Text.words arg).map arrow.withVal)
    return ⟨reg, kept, label, args⟩
  | _ => .error (arrow.withVal (.malformed Call.arrow .callStack))

/-- The tokens of an argument once the stack has moved by `moved` words. -/
def relocate (stack : Reg) (moved : Int) : List (List Char) → Except LineError (List (List Char))
  | [] => .ok []
  | first :: rest =>
    if first = memText stack then
      match rest with
      | [] => .ok [first, immText moved]
      | second :: others =>
        match numericImm? second with
        | none => .ok (first :: immText moved :: second :: others)
        | some k =>
          match Alias.add? moved k with
          | none => .error (.invalidOperand second)
          | some sum => .ok (first :: immText sum :: others)
    else .ok (first :: rest)

/-- The line that pushes an argument. -/
def pushLine (stack : Reg) (arg : List (List Char)) : List (List Char) :=
  "copy".toList :: arg ++ [memText stack, "push".toList]

/-- The lines that push the arguments, the first of them once the stack has moved by `moved`. -/
def pushLines (stack : Reg) (moved : Int) :
    List (List Token) → Except LineError (List (List (List Char)))
  | [] => .ok []
  | arg :: rest => do
    let tokens ← relocate stack moved (arg.map (·.val))
    let lines ← pushLines stack (moved + 1) rest
    return pushLine stack tokens :: lines

/-- The lines of code that a call comes to. -/
def lines (c : Call) : Except LineError (List (List (List Char))) := do
  let keep := if c.kept = 0 then []
    else [["copy".toList, regText c.stack, immText (-(c.kept : Int)), regText c.stack]]
  let returnAddress := ["copy".toList, Source.pc.text, immText (c.args.length + 2),
    memText c.stack, "push".toList]
  let pushes ← pushLines c.stack (1 + c.kept) c.args
  let jump := ["copy".toList, Source.pc.text, c.label ++ ".disp".toList, Destination.pc.text]
  return keep ++ [returnAddress] ++ pushes ++ [jump]

theorem length_pushLines {stack : Reg} {moved : Int} {args : List (List Token)}
    {ls : List (List (List Char))} (h : pushLines stack moved args = .ok ls) :
    ls.length = args.length := by
  induction args generalizing moved ls with
  | nil =>
    cases h
    rfl
  | cons arg rest ih =>
    simp only [pushLines, bind, Except.bind, pure, Except.pure] at h
    split at h
    · cases h
    · split at h
      · cases h
      · rename_i hl
        cases h
        simp [ih hl]

theorem length_lines {c : Call} {ls : List (List (List Char))} (h : c.lines = .ok ls) :
    ls.length = (if c.kept = 0 then 0 else 1) + c.args.length + 2 := by
  simp only [lines, bind, Except.bind, pure, Except.pure] at h
  split at h
  · cases h
  · rename_i hp
    cases h
    simp only [List.length_append, length_pushLines hp, List.length_singleton]
    split <;> simp <;> omega

end Call

end Assembly

end WordMachine
