import WordMachine.Word
import WordMachine.Isa.Effect
import WordMachine.Isa.Operand

/-!
# Where the immediates are kept

How many bits are left for the immediates depends on the class of the instruction and on its
operands. A compute gives four bits to its operation, and an instruction with a memory operand
gives one to the push and pop bit. A copy from memory to memory divides what is left between two
offsets without a sign. Everything else has a single immediate, which has a sign unless it is an
offset into memory.

The rule stands here and nowhere else: the assembler asks it which numbers fit, and the decoder
asks it how to read them.

## Main statements

* `Layout.width_le`: an immediate never meets the operation, nor a memory operand's push bit
-/

namespace WordMachine

/-- An interval of integers, both ends included. -/
structure Range where
  low : Int
  high : Int
  deriving DecidableEq, Repr, Inhabited

namespace Range

/-- Whether an integer lies in the interval. -/
def contains (r : Range) (i : Int) : Bool := r.low ≤ i && i ≤ r.high

instance : Membership Int Range := ⟨fun r i => r.contains i = true⟩

instance (i : Int) (r : Range) : Decidable (i ∈ r) :=
  inferInstanceAs (Decidable (r.contains i = true))

theorem mem_iff {i : Int} {r : Range} : i ∈ r ↔ r.low ≤ i ∧ i ≤ r.high := by
  change r.contains i = true ↔ _
  simp [contains]

/-- The integers that fit into `width` bits. -/
def ofBits (width : Nat) (signed : Bool) : Range :=
  if signed then
    let half : Int := Word.patterns (width - 1)
    ⟨-half, half - 1⟩
  else ⟨0, Word.patterns width - 1⟩

/-- The interval that holds zero alone. -/
def zero : Range := ⟨0, 0⟩

end Range

/-- The shape of an instruction's immediate bits. -/
inductive Layout where
  /-- One immediate of some width. -/
  | single (width : Nat) (signed : Bool)
  /-- Two offsets of three bits, the one of the source above the one of the destination. -/
  | split
  deriving DecidableEq, Repr, Inhabited

namespace Layout

/-- The layout of an instruction of a class with the given operands. -/
@[inline] def of (c : Class) (src : Source) (dst : Destination) : Layout :=
  match c, src.isMem, dst.isMem with
  | .copy, true, true => split
  | .copy, true, false => single 6 false
  | .copy, false, true => single 6 true
  | .copy, false, false => single 7 true
  | .compute, true, _ => single 2 false
  | .compute, false, true => single 2 true
  | .compute, false, false => single 3 true

/-- The position of the lowest immediate bit. -/
def shift : Class → Nat
  | .copy => 0
  | .compute => 4

/-- The immediates that fit beside the source. -/
def sourceRange : Layout → Range
  | single width signed => .ofBits width signed
  | split => .ofBits 3 false

/-- The immediates that fit beside the destination, where the layout has room for one. -/
def destinationRange? : Layout → Option Range
  | single _ _ => none
  | split => some (.ofBits 3 false)

/-- The immediates that the destination may have. One that has no room is zero. -/
def destinationRange (l : Layout) : Range := l.destinationRange?.getD .zero

/-- The number of bits of each of two offsets that share the field. -/
def splitWidth : Nat := 3

/-- The immediate bits in their place within the word. Bits that do not fit are dropped. -/
def pack (l : Layout) (c : Class) (srcImm dstImm : Int) : Word :=
  let field := match l with
    | single width _ => Word.ofInt srcImm &&& Word.mask width
    | split =>
      (Word.ofInt srcImm &&& Word.mask splitWidth) <<< UInt16.ofNat splitWidth
        ||| (Word.ofInt dstImm &&& Word.mask splitWidth)
  field <<< UInt16.ofNat (shift c)

/-- The immediates of source and destination held in a word. -/
@[inline] def unpack (l : Layout) (c : Class) (w : Word) : Int × Int :=
  let raw := w >>> UInt16.ofNat (shift c)
  match l with
  | single width signed =>
    let field := raw &&& Word.mask width
    (if signed then Word.signed (Word.signExtend field width) else field.toNat, 0)
  | split =>
    ((raw >>> UInt16.ofNat splitWidth &&& Word.mask splitWidth).toNat,
      (raw &&& Word.mask splitWidth).toNat)

/-- The width of the whole field. -/
def width : Layout → Nat
  | single width _ => width
  | split => 6

/-- With a memory operand the immediates stay clear of the push and pop bit. -/
theorem width_le (c : Class) (src : Source) (dst : Destination)
    (h : src.isMem = true ∨ dst.isMem = true) : (of c src dst).width + shift c ≤ 6 := by
  unfold of
  cases c <;> rcases hs : src.isMem with _ | _ <;> rcases hd : dst.isMem with _ | _ <;>
    simp_all [width, shift]

end Layout

end WordMachine
