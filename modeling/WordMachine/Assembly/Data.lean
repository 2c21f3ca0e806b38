import WordMachine.Assembly.Operand
import WordMachine.Assembly.Statement

/-!
# Lines of data

Behind the mark `%` stand words in base sixteen, four digits each, and items with a dot in them:
numbers, and references to labels. The digits of words may be cut into tokens in any way, as long
as a run of them that nothing interrupts fills its last word.

## Main statements

* `length_hexWordsAfter`: a run of digits comes to a word for every four of them
-/

namespace WordMachine

namespace Assembly

/-- The numbers that fit into one word, read with a sign or without. -/
def dataRange : Range := ⟨-0x8000, 0xFFFF⟩

/-- Reads words of four digits each, behind the words `done` that were read before, latest first. -/
def hexWordsAfter (done : List Word) : List Char → List Word
  | a :: b :: c :: d :: rest =>
    hexWordsAfter (UInt16.ofNat (Numeral.value [a, b, c, d]) :: done) rest
  | _ => done.reverse

/-- The words written in a run of digits. -/
def hexWords (t : List Char) : List Word := hexWordsAfter [] t

/-- Reads an item that is not made of digits alone. -/
def DataItem.read? (t : List Char) : Except LineError DataItem :=
  match (splitKind? t).bind fun (value, kind) => (RefKind.read? kind).map fun k => (value, k) with
  | none => .error (.malformed t .badDataItem)
  | some (value, kind) =>
    match Numeral.read? value with
    | some i => (checkRange dataRange i).map fun i => .words [Word.ofInt i]
    | none => (Label.read? value).map fun label => .ref ⟨label, kind⟩

/-- A line of data as far as it has been read. -/
structure DataDraft where
  /-- The items so far, latest first. -/
  items : List DataItem := []
  /-- The digits since the last item, latest first. -/
  run : List Char := []
  deriving DecidableEq, Repr, Inhabited

namespace DataDraft

/-- Makes an item of the digits since the last one. -/
def flush (d : DataDraft) : Except LineError DataDraft :=
  if d.run.isEmpty then .ok d
  else if d.run.length % 4 ≠ 0 then .error (.malformed d.run.reverse .raggedData)
  else .ok ⟨.words (hexWords d.run.reverse) :: d.items, []⟩

/-- Puts one more token into a draft. -/
def add (d : DataDraft) (t : List Char) : Except LineError DataDraft :=
  if t.all Numeral.isDigit then .ok { d with run := t.reverse ++ d.run }
  else do
    let d ← d.flush
    let item ← DataItem.read? t
    return { d with items := item :: d.items }

/-- Reads the tokens of a line; `last` is the one before them. A run of digits that does not fill
its last word is put down to the token behind it, or else to the last one. -/
def read (d : DataDraft) (last : Token) : List Token → Checked (List DataItem)
  | [] => (at? last d.flush).map fun d => d.items.reverse
  | tk :: rest => do
    let d ← at? tk (d.add tk.val)
    d.read tk rest

end DataDraft

/-- The items that the tokens behind the mark of a line of data describe. -/
def readData (mark : Token) (rest : List Token) : Checked (List DataItem) :=
  DataDraft.read {} mark rest

theorem length_hexWordsAfter (done : List Word) (t : List Char) :
    (hexWordsAfter done t).length = done.length + t.length / 4 := by
  fun_induction hexWordsAfter done t with
  | case1 done a b c d rest ih =>
    rw [ih]
    simp only [List.length_cons]
    omega
  | case2 t done h =>
    have ht : t.length < 4 := by
      rcases t with _ | ⟨a, _ | ⟨b, _ | ⟨c, _ | ⟨d, rest⟩⟩⟩⟩ <;> simp
      exact (h a b c d rest rfl).elim
    simp
    omega

end Assembly

end WordMachine
