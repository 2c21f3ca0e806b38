import WordMachine.Proofs.Numerals
import WordMachine.Proofs.Rebasing
import WordMachine.Proofs.Substitution

/-!
# Offsets that are written and read again

Aliases and calls are replaced by text, and so the numbers that are put in on the way are written
first and read afterwards. A number is written as a sign and a magnitude. It is read the same way,
but a magnitude has to fit into 31 bits, with a minus or without: of all the numbers that an offset
can be, the lowest is the one that is not read back. It is not refused either. Being no numeral, it
is the name of a label.

A tracked alias can come to that number, on its own or by a number behind it. The numbers that a
call puts in cannot: they count words, and an argument is only ever moved up.

## Main definitions

* `Alias.IsOffset`, `Alias.lowest`: the numbers that are kept as offsets, and the lowest of them
* `AliasTable.Folds`: the offset that a tracked alias comes to among tokens
* `Call.Inserts`: the offsets that a call puts in

## Main results

* `Alias.numericImm?_immText_eq`, `Alias.read?_immText`: how an offset is read
* `AliasTable.Folds.exists_of_substitute`: a tracked alias is replaced by what it comes to
* `Call.Inserts.exists_of_lines`: what a call puts in is read back
* `offsets_read_back`: all of it
-/

namespace WordMachine

namespace Assembly

open Numeral (limit)

/-! ### Single numbers -/

namespace Alias

/-- The lowest number that is kept as an offset. -/
def lowest : Int := -2147483648

/-- Whether a number is kept as an offset. -/
def IsOffset (v : Int) : Prop := lowest ≤ v ∧ v ≤ limit

instance (v : Int) : Decidable (IsOffset v) := inferInstanceAs (Decidable (_ ∧ _))

variable {v a b sum : Int}

theorem natAbs_le_limit_iff (hv : IsOffset v) : v.natAbs ≤ limit ↔ v ≠ lowest := by
  obtain ⟨hlow, hhigh⟩ := hv
  rw [lowest] at *
  rw [limit] at *
  omega

/-- A sum that is kept is an offset. -/
theorem isOffset_of_add? (h : add? a b = some sum) : IsOffset sum ∧ sum = a + b := by
  obtain ⟨hrange, rfl⟩ := Call.add?_eq_some_iff.mp h
  exact ⟨hrange, rfl⟩

/-- **The lowest offset is the one that is not read back.** -/
theorem numericImm?_immText_eq (hv : IsOffset v) :
    numericImm? (immText v) = if v = lowest then none else some v := by
  split
  · next h =>
    subst h
    decide
  · next h => exact numericImm?_immText ((natAbs_le_limit_iff hv).mpr h)

/-- It is read as the name of a label, wherever it stands. -/
theorem read?_immText (hv : IsOffset v) (cls : Class) (scopes : Scopes) :
    Part.read? cls scopes (immText v) =
      .ok (.imm (if v = lowest then .ref ⟨.named "-80000000".toList, .absolute⟩ else .num v)) := by
  split
  · next h =>
    subst h
    let f : Numeral.Form := ⟨true, false, "80000000".toList, by decide, by decide⟩
    let tk : Token := ⟨⟨1, 1⟩, immText lowest⟩
    have htext : tk.val = f.text ++ '.' :: "imm".toList := by decide
    have hread : Part.read? cls scopes tk.val = .ok (.imm (numeralImm f .absolute)) :=
      Part.read?_numeral rfl htext
    exact hread
  · next h => exact Part.read?_numericImm (numericImm?_immText ((natAbs_le_limit_iff hv).mpr h))

end Alias

open Alias (IsOffset lowest)

/-! ### Tracked aliases -/

namespace AliasTable

variable {t : AliasTable} {tokens row rest others : List Token} {tk : Token} {r : Reg} {v : Int}

/-- All offsets of a table are numbers that can be kept. -/
def KeepsOffsets (t : AliasTable) : Prop :=
  ∀ name r v, t.get? name = some (.tracked r v) → IsOffset v

/-- A tracked alias among tokens comes to an offset from a register: its own, or the sum of that
and of the number behind it. -/
inductive Folds (t : AliasTable) : List Token → Reg → Int → Prop
  | alone {front back : List Token} {tk : Token} {r : Reg} {v : Int}
    (hname : Alias.isName tk.val = true) (hget : t.get? tk.val = some (.tracked r v))
    (hback : ∀ next, back.head? = some next → numericImm? next.val = none) :
    Folds t (front ++ tk :: back) r v
  | sum {front back : List Token} {tk next : Token} {r : Reg} {v k : Int}
    (hname : Alias.isName tk.val = true) (hget : t.get? tk.val = some (.tracked r v))
    (hnext : numericImm? next.val = some k) :
    Folds t (front ++ tk :: next :: back) r (v + k)

/-- What an alias comes to is found in the row, between what comes of the tokens around it. -/
theorem exists_replaceFirst {front back : List Token} (hname : Alias.isName tk.val = true)
    (hok : t.substitute (front ++ tk :: back) = .ok row) :
    ∃ before shown others behind, t.replaceFirst tk back = .ok (shown, others) ∧
      row = before ++ shown ++ behind := by
  rw [t.substitute_append front back (numericImm?_of_isName hname)] at hok
  obtain ⟨before, -, hok⟩ := bind_eq_ok_iff.mp hok
  obtain ⟨more, hmore, hok⟩ := bind_eq_ok_iff.mp hok
  rw [substitute_cons] at hmore
  obtain ⟨⟨shown, others⟩, hshown, hmore⟩ := bind_eq_ok_iff.mp hmore
  obtain ⟨behind, -, rfl⟩ := map_eq_ok_iff.mp hmore
  refine ⟨before, shown, others, behind, hshown, ?_⟩
  rw [List.append_assoc, pure_eq_ok_iff.mp hok]

/-- **A tracked alias is replaced by what it comes to**, which is a number that can be kept. -/
theorem Folds.exists_of_substitute (h : t.Folds tokens r v) (hkeeps : t.KeepsOffsets)
    (hok : t.substitute tokens = .ok row) :
    IsOffset v ∧ ∃ before behind tk, row = before ++ trackedTokens tk r v ++ behind := by
  cases h with
  | @alone front back tk _ _ hname hget hback =>
    obtain ⟨before, shown, others, behind, hshown, rfl⟩ := exists_replaceFirst hname hok
    have hfirst : t.replaceFirst tk back = .ok (trackedTokens tk r v, back) := by
      rw [replaceFirst, if_pos hname, hget]
      cases back with
      | nil => rfl
      | cons next back =>
        dsimp only
        rw [hback next rfl]
    obtain ⟨rfl, -⟩ := Prod.mk.inj (Except.ok.inj (hshown.symm.trans hfirst))
    exact ⟨hkeeps tk.val r v hget, before, behind, tk, rfl⟩
  | @sum front back tk next _ offset k hname hget hnext =>
    obtain ⟨before, shown, others, behind, hshown, rfl⟩ := exists_replaceFirst hname hok
    rw [replaceFirst, if_pos hname, hget] at hshown
    dsimp only at hshown
    rw [hnext] at hshown
    dsimp only at hshown
    split at hshown
    · cases hshown
    · next sum hsum =>
      obtain ⟨hoffset, rfl⟩ := Alias.isOffset_of_add? hsum
      obtain ⟨rfl, -⟩ := Prod.mk.inj (Except.ok.inj hshown)
      exact ⟨hoffset, before, behind, tk, rfl⟩

end AliasTable

/-! ### Calls -/

namespace Call

variable {c : Call} {lines : List (List (List Char))} {stack : Reg} {moved v k : Int}
  {first : List Char} {rest others us : List (List Char)}

/-- The offsets that a call puts in: what moves the stack to keep words on it, how far ahead it
returns, and for each argument that is read from the stack how far that has moved by then, together
with a number that stands there. -/
inductive Inserts (c : Call) : Int → Prop
  | keep (h : c.kept ≠ 0) : Inserts c (-c.kept)
  | ahead : Inserts c (c.args.length + 2)
  | moved {i : Nat} {arg : List Token} {rest : List (List Char)} (harg : c.args[i]? = some arg)
    (hfirst : arg.map (·.val) = memText c.stack :: rest)
    (hrest : ∀ next, rest.head? = some next → numericImm? next = none) :
    Inserts c (1 + c.kept + i)
  | sum {i : Nat} {arg : List Token} {next : List Char} {others : List (List Char)} {k : Int}
    (harg : c.args[i]? = some arg)
    (hfirst : arg.map (·.val) = memText c.stack :: next :: others)
    (hnext : numericImm? next = some k) : Inserts c (1 + c.kept + i + k)

/-- An argument on the stack without a number is given one. -/
theorem relocate_of_forall (hrest : ∀ next, rest.head? = some next → numericImm? next = none) :
    relocate stack moved (memText stack :: rest)
      = .ok (memText stack :: immText moved :: rest) := by
  rw [relocate.eq_def]
  dsimp only
  rw [if_pos rfl]
  cases rest with
  | nil => rfl
  | cons next others =>
    dsimp only
    rw [hrest next rfl]

/-- An argument on the stack with a number is given the sum, where that can be kept. -/
theorem eq_of_relocate {next : List Char} (hnext : numericImm? next = some k)
    (h : relocate stack moved (memText stack :: next :: others) = .ok us) :
    Alias.add? moved k = some (moved + k) ∧
      us = memText stack :: immText (moved + k) :: others := by
  rw [relocate.eq_def] at h
  dsimp only at h
  rw [if_pos rfl, hnext] at h
  dsimp only at h
  split at h
  · cases h
  · next sum hsum =>
    obtain ⟨-, rfl⟩ := Alias.isOffset_of_add? hsum
    exact ⟨hsum, (Except.ok.inj h).symm⟩

/-- A number that is read is not below zero by more than the limit. -/
theorem neg_limit_le {t : List Char} (h : numericImm? t = some k) : -(limit : Int) ≤ k := by
  obtain ⟨value, -, hvalue⟩ := numericImm?_eq_some_iff.mp h
  have hle := Numeral.natAbs_le_of_read? hvalue
  omega

/-- **What a call puts in is read back**, as long as all that it counts fits into 31 bits. -/
theorem Inserts.exists_of_lines (h : c.Inserts v) (hok : c.lines = .ok lines)
    (hlimit : c.kept + c.args.length + 2 ≤ limit) :
    (∃ line ∈ lines, immText v ∈ line) ∧ numericImm? (immText v) = some v := by
  have hindex {i : Nat} {arg : List Token} (harg : c.args[i]? = some arg) : i < c.args.length :=
    (List.getElem?_eq_some_iff.mp harg).1
  obtain ⟨pushes, -, hlines⟩ := lines_eq_ok_iff.mp hok
  cases h with
  | keep hkept =>
    refine ⟨⟨["copy".toList, regText c.stack, immText (-c.kept), regText c.stack], ?_, by simp⟩,
      numericImm?_immText (by omega)⟩
    rw [hlines, keepLines, if_neg hkept]
    exact List.mem_append_left _ List.mem_cons_self
  | ahead =>
    refine ⟨⟨pushLine c.stack [Source.pc.text, immText (c.args.length + 2)], ?_, ?_⟩,
      numericImm?_immText (by omega)⟩
    · rw [hlines]
      exact List.mem_append_right _ List.mem_cons_self
    · simp [pushLine]
  | @moved i arg rest harg hfirst hrest =>
    obtain ⟨us, hus, hline⟩ := getElem?_lines hok harg
    rw [hfirst, relocate_of_forall hrest] at hus
    obtain rfl := Except.ok.inj hus
    have hlt := hindex harg
    refine ⟨⟨_, List.mem_of_getElem? hline, ?_⟩, numericImm?_immText (by omega)⟩
    simp [pushLine]
  | @sum i arg next others k harg hfirst hnext =>
    obtain ⟨us, hus, hline⟩ := getElem?_lines hok harg
    rw [hfirst] at hus
    obtain ⟨hsum, rfl⟩ := eq_of_relocate hnext hus
    have hlt := hindex harg
    have hlow := neg_limit_le hnext
    obtain ⟨⟨-, hhigh⟩, -⟩ := Alias.isOffset_of_add? hsum
    refine ⟨⟨_, List.mem_of_getElem? hline, ?_⟩, numericImm?_immText (by omega)⟩
    simp [pushLine]

end Call

/-- **Offsets are read back, all but one.** A number that is kept as an offset is read back from the
text that it is written as, unless it is the lowest, which is taken for the name of a label. What a
tracked alias comes to is written in its place, be it its own offset or a sum, so that there too it
is the lowest that is read as a name. What a call puts in is written into its lines, and it is
never the lowest. -/
theorem offsets_read_back (v : Int) :
    (IsOffset v → (numericImm? (immText v) = some v ↔ v ≠ lowest) ∧
      ∀ cls scopes, Part.read? cls scopes (immText v) =
        .ok (.imm (if v = lowest then .ref ⟨.named "-80000000".toList, .absolute⟩ else .num v))) ∧
    (∀ (t : AliasTable) tokens row r, t.KeepsOffsets → t.Folds tokens r v →
      t.substitute tokens = .ok row →
        IsOffset v ∧
          ∃ before behind tk, row = before ++ AliasTable.trackedTokens tk r v ++ behind) ∧
    ∀ (c : Call) lines, c.kept + c.args.length + 2 ≤ limit → c.Inserts v → c.lines = .ok lines →
      (∃ line ∈ lines, immText v ∈ line) ∧ numericImm? (immText v) = some v := by
  refine ⟨fun hv => ⟨?_, fun cls scopes => Alias.read?_immText hv cls scopes⟩, ?_, ?_⟩
  · rw [Alias.numericImm?_immText_eq hv]
    by_cases hlow : v = lowest <;> simp [hlow]
  · intro t tokens row r hkeeps hfolds hok
    exact hfolds.exists_of_substitute hkeeps hok
  · intro c lines hlimit hinserts hok
    exact hinserts.exists_of_lines hok hlimit

/-- A call with an argument that is read from its stack below the pointer. -/
def sampleCall : Call where
  stack := .r1
  kept := 2
  label := "go".toList
  args := [lineOf ["1.mem", "-1.imm"]]

/-- Names for the word that a register points at and the one behind it. -/
def namedPair : AliasTable := AliasTable.defineIndexed {} .r1 0 ["$a".toList, "$b".toList]

theorem keepsOffsets_namedPair : namedPair.KeepsOffsets := by
  intro name r v h
  rw [namedPair, AliasTable.defineIndexed, AliasTable.defineIndexed, AliasTable.defineIndexed,
    AliasTable.get?_insert, AliasTable.get?_insert] at h
  split at h
  · cases h
    decide
  split at h
  · cases h
    decide
  · cases h

/-- A name one word behind a pointer with a number behind it, and a call that reads an argument from
its stack. -/
theorem offsets_read_back_four :
    numericImm? (immText 2147483647) = some 2147483647 ∧
    Part.read? .copy ({} : Scopes) (immText (-2147483647)) = .ok (.imm (.num (-2147483647))) ∧
    (∃ before behind tk, lineOf ["copy", "1.mem", "-1.imm", "2.reg"] =
      before ++ AliasTable.trackedTokens tk .r1 (-1) ++ behind) ∧
    ∃ lines, sampleCall.lines = .ok lines ∧ ∃ line ∈ lines, immText 2 ∈ line := by
  refine ⟨?_, ?_, ?_, ?_⟩
  · obtain ⟨hnumeric, -⟩ := (offsets_read_back 2147483647).1 (by decide)
    exact hnumeric.mpr (by decide)
  · obtain ⟨-, hread⟩ := (offsets_read_back (-2147483647)).1 (by decide)
    exact hread .copy {}
  · have hsum : namedPair.Folds (lineOf ["copy", "$b", "-2.imm", "2.reg"]) .r1 (1 + -2) :=
      @AliasTable.Folds.sum namedPair (lineOf ["copy"]) (lineOf ["2.reg"]) ⟨⟨1, 1⟩, "$b".toList⟩
        ⟨⟨1, 1⟩, "-2.imm".toList⟩ .r1 1 (-2) (by decide) (by decide) (by decide)
    obtain ⟨-, hfolds, -⟩ := offsets_read_back (1 + -2)
    exact (hfolds namedPair _ _ _ keepsOffsets_namedPair hsum (by decide)).2
  · have hsum : sampleCall.Inserts (1 + 2 + (0 : Nat) + -1) :=
      @Call.Inserts.sum sampleCall 0 (lineOf ["1.mem", "-1.imm"]) "-1.imm".toList [] (-1)
        rfl rfl (by decide)
    obtain ⟨lines, hlines⟩ : ∃ lines, sampleCall.lines = .ok lines := ⟨_, rfl⟩
    obtain ⟨-, -, hcall⟩ := offsets_read_back (1 + 2 + (0 : Nat) + -1)
    exact ⟨lines, hlines, (hcall sampleCall lines (by decide) hsum hlines).1⟩

/-- What is known behind a declaration and a pop. -/
def poppedContext : Context :=
  ((Context.expand {} (lineOf ["$a,", "$b", "as", "1.mem"])).2.expand
    (lineOf ["copy", "1.mem", "2.reg", "pop"])).2

/-- **A sum is read as a name.** Behind a pop a name is one word below the pointer, and the lowest
number that can be read takes it down to one that cannot. The line is accepted, and what it copies
is found by the address of a label. -/
theorem exists_offset_read_as_name :
    poppedContext.aliases.get? "$a".toList = some (.tracked .r1 (-1)) ∧
    poppedContext.expand (lineOf ["copy", "$a", "-7fffffff.imm", "2.reg"]) =
      (.ok [⟨⟨1, 1⟩, .op ⟨.copy, .mem .r1, .reg .r2, .ref ⟨.named "-80000000".toList, .absolute⟩,
        .zero, .always, false⟩⟩], poppedContext) ∧
    numericImm? (immText (-2147483648)) = none := by
  refine ⟨?_, ?_, ?_⟩
  · decide +kernel
  · decide +kernel
  · decide +kernel

end Assembly

end WordMachine
