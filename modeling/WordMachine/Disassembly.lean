import WordMachine.Isa.Instruction

/-!
# Disassembly

A word in memory is shown with its address and the instruction it stands for. What follows the
instruction is a comment, so the text from the third column on can be assembled again.
-/

namespace WordMachine

/-- A word and where it was found. -/
structure Decoded where
  address : Word
  word : Word
  deriving DecidableEq, Repr, Inhabited

namespace Decoded

/-- The instruction of a word. -/
def inst (d : Decoded) : Inst := .decode d.word

/-- The written form of a word in memory. -/
def text (d : Decoded) : String :=
  Numeral.lower d.address ++ ": " ++ Numeral.lower d.word ++ "  " ++ String.ofList d.inst.text
    ++ if d.inst.isHalt then "  # halt" else ""

/-- Words that follow one another, from an address on. Addresses start again behind the last. -/
def ofWords (start : Word) (ws : List Word) : List Decoded :=
  ws.zipIdx.map fun (w, i) => ⟨UInt16.ofNat (start.toNat + i), w⟩

/-- The words around an address, as far as there are any: up to `before` words in front of it, and
up to `behind` words behind it. -/
def window (peek : Word → Option Word) (pc before behind : Word) : List Decoded :=
  let first := pc.toNat - before.toNat
  let last := min (pc.toNat + behind.toNat) 65535
  (List.range' first (last + 1 - first)).filterMap fun n =>
    let address : Word := UInt16.ofNat n
    (peek address).map fun w => ⟨address, w⟩

end Decoded

end WordMachine
