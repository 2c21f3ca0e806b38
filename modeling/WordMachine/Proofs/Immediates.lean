import WordMachine.Proofs.Blocks
import WordMachine.Proofs.Numerals

/-!
# Immediates in code and in data

A token of the kinds `imm` and `disp` may stand in an operation and on a line of data, and each of
the two has a reader of its own. Both readers take a numeral for its number, and anything else that
is neither `loop` nor `break` for the name of a label, so the item of data says what the immediate
says. These two words are where they part. An operation refers to the innermost block; a line of
data refers to a label of that name, whether a block is open or not, and such a label may well be
defined.

## Main definitions

* `DataItem.ofImm`: the item of data that says what an immediate says

## Main results

* `DataItem.resolve_ofImm`: both come to the same number, wherever labels are
* `DataItem.eq_ofImm_of_read?`: the readers agree on all words but two
* `DataItem.read?_of_blockMark`: those are names on a line of data
* `immediates_of_lines`: any two lines with the same token
-/

namespace WordMachine

namespace Assembly

/-! ### Words that refer to blocks -/

theorem blockMark?_eq_some_iff {t : List Char} {mark : Nat → Label} :
    blockMark? t = some mark ↔
      t = "loop".toList ∧ mark = .blockStart ∨ t = "break".toList ∧ mark = .blockEnd := by
  rw [blockMark?]
  grind

theorem blockMark?_eq_none_iff {t : List Char} :
    blockMark? t = none ↔ t ≠ "loop".toList ∧ t ≠ "break".toList := by
  rw [blockMark?]
  grind

/-! ### Items that say what immediates say -/

namespace DataItem

/-- An immediate as an item of data. -/
def ofImm : Imm → DataItem
  | .num i => .words [Word.ofInt i]
  | .ref r => .ref r

/-- The item comes to the number that the immediate comes to, and to nothing where that does. -/
theorem resolve_ofImm (i : Imm) (labels : LabelMap) (address : Word) :
    (ofImm i).resolve labels address =
      (i.resolve labels address).map fun value => [Word.ofInt value] := by
  cases i <;> rfl

variable {t value : List Char} {k : RefKind} {mark : Nat → Label} {scopes : Scopes} {i : Imm}
  {item : DataItem}

/-- How an item is read that is an immediate. -/
theorem read?_of_immediate (ht : immediate? t = some (value, k)) :
    read? t = match Numeral.read? value with
      | some i => (checkRange dataRange i).map fun i => .words [Word.ofInt i]
      | none => (Label.read? value).map fun label => .ref ⟨label, k⟩ := by
  rw [immediate?] at ht
  cases hnumber : Numeral.read? value <;> simp only [read?, ht, hnumber]

/-- A token with a dot in it is not made of digits. -/
theorem all_isDigit_of_immediate (ht : immediate? t = some (value, k)) :
    t.all Numeral.isDigit = false := by
  have hdot : '.' ∈ t := by
    by_contra hnone
    rw [immediate?, splitKind?, Text.cutLast?_eq_none_iff.mpr hnone] at ht
    cases ht
  exact List.all_eq_false.mpr ⟨'.', hdot, by decide⟩

/-- Where no block is referred to, both readers say the same. A number is one that fits into a
word. -/
theorem eq_ofImm_of_read? (ht : immediate? t = some (value, k)) (hvalue : blockMark? value = none)
    (hi : Imm.read? value k scopes = .ok i) (hitem : read? t = .ok item) :
    item = ofImm i ∧ ∀ v, i = .num v → v ∈ dataRange := by
  obtain ⟨hloop, hbreak⟩ := blockMark?_eq_none_iff.mp hvalue
  rw [read?_of_immediate ht] at hitem
  rw [Imm.read?] at hi
  cases hnumber : Numeral.read? value with
  | some v =>
    rw [hnumber] at hi hitem
    obtain ⟨v', hv', rfl⟩ := map_eq_ok_iff.mp hitem
    obtain ⟨hrange, rfl⟩ := checkRange_eq_ok_iff.mp hv'
    cases hi
    refine ⟨rfl, fun w hw => ?_⟩
    rwa [← Imm.num.inj hw]
  | none =>
    rw [hnumber] at hi hitem
    dsimp only at hi hitem
    rw [if_neg hloop, if_neg hbreak] at hi
    obtain ⟨label, hlabel, hpair⟩ := bind_eq_ok_iff.mp hi
    obtain ⟨label', hlabel', rfl⟩ := map_eq_ok_iff.mp hitem
    cases hlabel.symm.trans hlabel'
    cases pure_eq_ok_iff.mp hpair
    refine ⟨rfl, fun v hv => ?_⟩
    cases hv

/-- A line of data takes the words that refer to blocks for names. -/
theorem read?_of_blockMark (ht : immediate? t = some (value, k))
    (h : blockMark? value = some mark) : read? t = .ok (.ref ⟨.named value, k⟩) := by
  rw [read?_of_immediate ht]
  rcases blockMark?_eq_some_iff.mp h with ⟨rfl, -⟩ | ⟨rfl, -⟩ <;> rfl

/-- The mark of a block has no name. -/
theorem ne_ofImm_of_blockMark (h : blockMark? value = some mark) (j : Nat) :
    ref ⟨.named value, k⟩ ≠ ofImm (.ref ⟨mark j, k⟩) := by
  intro heq
  have hlabel : Label.named value = mark j := (LabelRef.mk.inj (ref.inj heq)).1
  rcases blockMark?_eq_some_iff.mp h with ⟨-, rfl⟩ | ⟨-, rfl⟩ <;> cases hlabel

end DataItem

/-! ### Lines with the same token -/

section Lines

variable {t value : List Char} {k : RefKind} {scopes next next' : Scopes}
  {first first' tk tk' : Token} {rest rest' : List Token} {op : Operation} {items : List DataItem}

/-- An operation has what its token is read as among its immediates. -/
theorem exists_hasImm_of_readLine (ht : immediate? tk.val = some (value, k)) (hmem : tk ∈ rest)
    (h : readLine scopes (first :: rest) = .ok (some (.op op), next)) :
    ∃ i, Imm.read? value k scopes = .ok i ∧ op.HasImm i := by
  rcases op_or_data_of_readLine h (List.ne_nil_of_mem hmem) with
    ⟨cls, op, hs, hop⟩ | ⟨items, hs, -⟩
  · cases hs
    obtain ⟨d, hd, -⟩ := readOperation_eq_ok_iff.mp hop
    obtain ⟨part, hpart⟩ := Draft.exists_part_of_read hd hmem
    have hread := hpart
    rw [Part.read?_of_immediate ht] at hread
    obtain ⟨i, hi, rfl⟩ := map_eq_ok_iff.mp hread
    exact ⟨i, hi, hasImm_of_readOperation hop hmem hpart⟩
  · cases hs

/-- A line of data has what its token is read as among its items. -/
theorem exists_mem_of_readLine (ht : immediate? tk.val = some (value, k)) (hmem : tk ∈ rest)
    (h : readLine scopes (first :: rest) = .ok (some (.data items), next)) :
    ∃ item ∈ items, DataItem.read? tk.val = .ok item := by
  rcases op_or_data_of_readLine h (List.ne_nil_of_mem hmem) with
    ⟨cls, op, hs, -⟩ | ⟨items, hs, hitems⟩
  · cases hs
  · cases hs
    exact DataDraft.exists_item_of_read hitems hmem (DataItem.all_isDigit_of_immediate ht)

/-- **An immediate in code and in data.** Let a token be accepted in an operation and on a line of
data, whichever blocks are open. Both lines then have what they read it as, and that is the same
number, which fits into a word, or a reference of the same kind to the same label, unless the token
says `loop` or `break`. If it does, the operation refers to the start or the end of the innermost
block and the data to a label that the user has to define, which is never the same. -/
theorem immediates_of_lines (ht : immediate? t = some (value, k))
    (htk : tk.val = t) (hmem : tk ∈ rest) (htk' : tk'.val = t) (hmem' : tk' ∈ rest')
    (hop : readLine scopes (first :: rest) = .ok (some (.op op), next))
    (hdata : readLine scopes (first' :: rest') = .ok (some (.data items), next')) :
    ∃ i item, Imm.read? value k scopes = .ok i ∧ op.HasImm i ∧
      DataItem.read? t = .ok item ∧ item ∈ items ∧
      (blockMark? value = none → item = .ofImm i ∧ ∀ v, i = .num v → v ∈ dataRange) ∧
      ∀ mark, blockMark? value = some mark →
        item ≠ .ofImm i ∧ item = .ref ⟨.named value, k⟩ ∧
          ∃ j outer, scopes.ids = j :: outer ∧ i = .ref ⟨mark j, k⟩ := by
  subst htk
  obtain ⟨i, hi, himm⟩ := exists_hasImm_of_readLine ht hmem hop
  obtain ⟨item, hitem, hread⟩ := exists_mem_of_readLine (htk' ▸ ht) hmem' hdata
  rw [htk'] at hread
  refine ⟨i, item, hi, himm, hread, hitem, fun hvalue => ?_, fun mark hvalue => ?_⟩
  · exact DataItem.eq_ofImm_of_read? ht hvalue hi hread
  · obtain rfl := Except.ok.inj ((DataItem.read?_of_blockMark ht hvalue).symm.trans hread)
    rw [Imm.read?_of_blockMark hvalue] at hi
    rcases hids : scopes.ids with _ | ⟨j, outer⟩ <;> rw [hids] at hi
    · cases hi
    · obtain rfl := Except.ok.inj hi
      exact ⟨DataItem.ne_ofImm_of_blockMark hvalue j, rfl, j, outer, rfl, rfl⟩

end Lines

/-- A block is open, and one is open inside of it. -/
def twoBlocks : Scopes := (({} : Scopes).push blockName).2.push blockName |>.2

/-- An operation that copies the start of the second block. -/
def copyOfStart : Operation where
  opcode := .copy
  src := .imm
  dst := .reg .r1
  srcImm := .ref ⟨.blockStart 2, .absolute⟩
  dstImm := .zero
  effect := .always
  push := false

/-- A number in an operation and on a line of data, and the start of a block in both. -/
theorem immediates_of_lines_two :
    (∃ op items,
      readLine twoBlocks (lineOf ["copy", "4.val", "-1F.imm", "1.reg"]) =
        .ok (some (.op op), twoBlocks) ∧
      readLine twoBlocks (lineOf ["%", "abcd", "-1F.imm"]) = .ok (some (.data items), twoBlocks) ∧
      ∃ i item, op.HasImm i ∧ item ∈ items ∧ item = .ofImm i) ∧
    ∃ op items,
      readLine twoBlocks (lineOf ["copy", "4.val", "loop.disp", "1.reg"]) =
        .ok (some (.op op), twoBlocks) ∧
      readLine twoBlocks (lineOf ["%", "loop.disp"]) = .ok (some (.data items), twoBlocks) ∧
      ∃ i item, op.HasImm i ∧ item ∈ items ∧ item ≠ .ofImm i := by
  constructor
  · let tk : Token := ⟨⟨1, 1⟩, "-1F.imm".toList⟩
    have ht : immediate? tk.val = some ("-1F".toList, .absolute) := by decide
    have hmem : tk ∈ lineOf ["4.val", "-1F.imm", "1.reg"] := by decide
    have hmem' : tk ∈ lineOf ["abcd", "-1F.imm"] := by decide
    have hread : (∃ op, readLine twoBlocks (lineOf ["copy", "4.val", "-1F.imm", "1.reg"]) =
          .ok (some (.op op), twoBlocks)) ∧
        ∃ items, readLine twoBlocks (lineOf ["%", "abcd", "-1F.imm"]) =
          .ok (some (.data items), twoBlocks) := ⟨⟨_, rfl⟩, _, rfl⟩
    obtain ⟨⟨op, hop⟩, items, hdata⟩ := hread
    obtain ⟨i, item, -, himm, -, hitem, hsame, -⟩ :=
      immediates_of_lines ht rfl hmem rfl hmem' hop hdata
    exact ⟨op, items, hop, hdata, i, item, himm, hitem, (hsame (by decide)).1⟩
  · let tk : Token := ⟨⟨1, 1⟩, "loop.disp".toList⟩
    have ht : immediate? tk.val = some ("loop".toList, .displacement) := by decide
    have hmem : tk ∈ lineOf ["4.val", "loop.disp", "1.reg"] := by decide
    have hmem' : tk ∈ lineOf ["loop.disp"] := by decide
    have hread : (∃ op, readLine twoBlocks (lineOf ["copy", "4.val", "loop.disp", "1.reg"]) =
          .ok (some (.op op), twoBlocks)) ∧
        ∃ items, readLine twoBlocks (lineOf ["%", "loop.disp"]) =
          .ok (some (.data items), twoBlocks) := ⟨⟨_, rfl⟩, _, rfl⟩
    obtain ⟨⟨op, hop⟩, items, hdata⟩ := hread
    obtain ⟨i, item, -, himm, -, hitem, -, happart⟩ :=
      immediates_of_lines ht rfl hmem rfl hmem' hop hdata
    exact ⟨op, items, hop, hdata, i, item, himm, hitem, (happart .blockStart rfl).1⟩

/-- **One token, two labels.** Inside a block, `loop` is its start in an operation and a name on a
line of data. -/
theorem exists_loop_read_apart :
    readLine twoBlocks (lineOf ["copy", "4.val", "loop.imm", "1.reg"]) =
      .ok (some (.op copyOfStart), twoBlocks) ∧
    readLine twoBlocks (lineOf ["%", "loop.imm"]) =
      .ok (some (.data [.ref ⟨.named "loop".toList, .absolute⟩]), twoBlocks) ∧
    .ref ⟨.named "loop".toList, .absolute⟩ ≠ DataItem.ofImm copyOfStart.srcImm :=
  ⟨rfl, rfl, by decide⟩

end Assembly

end WordMachine
