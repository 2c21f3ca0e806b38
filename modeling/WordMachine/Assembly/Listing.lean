import WordMachine.Assembly.Statement

/-!
# The listing

A listing shows the finished program beside its source: a heading, then a line for each operation
and one for each block of data, in the order of their addresses.
-/

namespace WordMachine

namespace Assembly

/-- A line of a listing. -/
inductive Entry where
  | header
  | inst (address word : Word) (line : Nat) (source : List Char)
  | data (start : Word) (words : Nat)
  deriving DecidableEq, Repr, Inhabited

/-- A number in at least six places. -/
def Entry.column (n : Nat) : List Char :=
  let digits := Numeral.decimal n
  List.replicate (6 - digits.length) ' ' ++ digits

/-- The written form of a line of a listing. -/
def Entry.text : Entry → String
  | header => "ADDRESS: INS-WORD  LINE#: SOURCE"
  | inst address word line source =>
    " " ++ Numeral.lower address ++ ": " ++ Numeral.lower word ++ "   "
      ++ String.ofList (column line) ++ ": " ++ String.ofList (Text.trim source)
  | data start words => " " ++ Numeral.lower start ++ ": " ++ toString words ++ " words of data"

end Assembly

end WordMachine
