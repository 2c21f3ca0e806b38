import WordMachine.Assembly.Error
import WordMachine.Text.Numeral
import Std.Data.TreeMap

/-!
# Labels

A label is an address with a name. The user names some; the two ends of every block have labels of
their own, numbered by the block. The written form of those begins with a brace, which no name of
the user's does, so the two sorts never meet.

## Main statements

* `Label.key_injective`: labels are told apart by their keys, which order the label map
-/

namespace WordMachine

namespace Assembly

/-- The name of an address. -/
inductive Label where
  /-- A name given in the source. -/
  | named (name : List Char)
  /-- The start of a block. -/
  | blockStart (id : Nat)
  /-- The end of a block. -/
  | blockEnd (id : Nat)
  deriving DecidableEq, Repr, Inhabited

namespace Label

/-- The written form of a label. -/
def text : Label → List Char
  | named name => name
  | blockStart id => '\x7b' :: Numeral.decimal id
  | blockEnd id => '\x7d' :: Numeral.decimal id

/-- Whether a name is kept for the ends of blocks. -/
def isReserved (t : List Char) : Bool := t.head? == some '\x7b' || t.head? == some '\x7d'

/-- Reads the name of a label. -/
def read? (t : List Char) : Except LineError Label :=
  if t.isEmpty then .error (.malformed t .emptyLabel)
  else if isReserved t then .error (.malformed t .reservedLabel)
  else if t.contains '.' || t.contains ':' then .error (.malformed t .punctuatedLabel)
  else .ok (named t)

/-- What labels are ordered by: names by the codes of their characters, and the ends of blocks,
behind all names, by their numbers. -/
def key : Label → List Nat
  | named name => 0 :: name.map Char.toNat
  | blockStart id => [1, id]
  | blockEnd id => [2, id]

theorem key_injective {a b : Label} (h : a.key = b.key) : a = b := by
  cases a <;> cases b <;> simp [key] at h
  · rw [(List.map_inj_right fun _ _ => Char.toNat_inj.mp).mp h]
  · rw [h]
  · rw [h]

/-- Compares numbers first by first, and a shorter list before a longer one that it begins. -/
def compareKeys : List Nat → List Nat → Ordering := List.compareLex (@compare Nat instOrdNat)

instance : Ord Label := ⟨fun a b => compareKeys a.key b.key⟩

instance : Std.TransCmp compareKeys := List.instTransCmpCompareLex

instance : Std.LawfulEqCmp compareKeys := List.instLawfulEqCmpCompareLex

instance : Std.TransOrd Label where
  eq_swap {a b} := @Std.OrientedCmp.eq_swap _ compareKeys _ a.key b.key
  isLE_trans {a b c} := @Std.TransCmp.isLE_trans _ compareKeys _ a.key b.key c.key

instance : Std.LawfulEqOrd Label where
  compare_self {a} := @Std.ReflCmp.compare_self _ compareKeys _ a.key
  eq_of_compare {a b} h :=
    key_injective (@Std.LawfulEqCmp.eq_of_compare _ compareKeys _ a.key b.key h)

end Label

/-- The addresses of labels. -/
abbrev LabelMap := Std.TreeMap Label Word

/-- How a reference counts. -/
inductive RefKind where
  /-- From the start of memory: `name.imm`. -/
  | absolute
  /-- From the word that holds the reference: `name.disp`. -/
  | displacement
  deriving DecidableEq, Repr, Inhabited

namespace RefKind

/-- The written form of a kind. -/
def text : RefKind → List Char
  | absolute => "imm".toList
  | displacement => "disp".toList

/-- Reads a kind. -/
def read? (t : List Char) : Option RefKind :=
  if t = "imm".toList then some absolute
  else if t = "disp".toList then some displacement
  else none

@[simp] theorem read?_text (k : RefKind) : read? k.text = some k := by cases k <;> rfl

end RefKind

/-- A number that is known once labels have addresses. -/
structure LabelRef where
  label : Label
  kind : RefKind
  deriving DecidableEq, Repr, Inhabited

namespace LabelRef

/-- The written form of a reference. -/
def text (r : LabelRef) : List Char := r.label.text ++ '.' :: r.kind.text

/-- The number that a reference in the word at `address` stands for. -/
def resolve (r : LabelRef) (labels : LabelMap) (address : Word) : Except LineError Int :=
  match labels[r.label]? with
  | none => .error (.unresolvedLabel r.label.text)
  | some target =>
    match r.kind with
    | .absolute => .ok target.toNat
    | .displacement => .ok (target.toNat - address.toNat)

end LabelRef

end Assembly

end WordMachine
