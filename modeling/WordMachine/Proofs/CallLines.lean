import Mathlib.Data.List.Forall2
import WordMachine.Proofs.Convention
import WordMachine.Proofs.Pieces
import WordMachine.Proofs.Rows
import WordMachine.Proofs.Written

/-!
# The lines of a call

A call is written in one line and made of several, each of them a line of code. This file reads the
one and the others. `Call.IsWritten` describes the line of a call whose arguments are spelled in
the plain way, and says what they are. `CopyLine` is a line of code such as calls are made of, with
the operation that it is read as. Between the two stands the relocation of arguments, which rewrites
the immediate of an argument that lies on the stack.

The texts of numbers are left open as far as they can be: a number in the line of a call may be
spelled in any way that reads as that number, and it is handed on as it was spelled unless it has to
be relocated.

## Main results

* `Call.read?_written`: what the line of a call is read as
* `Context.statements_copyLines`: what lines of code of this form come to
* `Call.lines_written`: the lines of a call are the instructions of the calling convention
-/

namespace WordMachine

namespace Assembly

namespace Call

/-! ### How a call is written -/

/-- Texts that name a stack and the number of words to be kept on it. -/
inductive SpellsStack (aliases : AliasTable) (stack : Reg) : Nat → List Char → Prop
  | bare {operand : List Char} (hoperand : '[' ∉ operand)
      (hstack : aliases.stackReg? operand = .ok stack) : SpellsStack aliases stack 0 operand
  | kept {operand numeral : List Char} {kept : Nat} (hoperand : '[' ∉ operand)
      (hstack : aliases.stackReg? operand = .ok stack)
      (hnumeral : Numeral.read? numeral = some (kept : Int)) :
      SpellsStack aliases stack kept (operand ++ '[' :: (numeral ++ [']']))

/-- The words that spell an argument: its operand, and an immediate where it has a number. -/
def Argument.IsSpelled (arg : Argument) (ts : List (List Char)) : Prop :=
  match arg.imm? with
  | none => ts = [arg.source.text]
  | some k => ∃ t, ts = [arg.source.text, t] ∧ numericImm? t = some k

/-- A text with a label and, between brackets and separated by commas, arguments. Between commas
there may be white space only, which is no argument. -/
structure SpellsCallee (callee : List Char) (args : List Argument) (t : List Char) : Prop where
  exists_brackets : ∃ head inner, t = head ++ '(' :: (inner ++ [')']) ∧ '(' ∉ head ∧
    Text.trim head = callee ∧
    List.Forall₂ Argument.IsSpelled args
      (((inner.splitOn ',').map Text.words).filter (!·.isEmpty))

/-- The tokens of a call: a stack, an arrow, and the tokens of a callee with its arguments. -/
structure IsWritten (aliases : AliasTable) (stack : Reg) (kept : Nat) (callee : List Char)
    (args : List Argument) (lhs arrow : Token) (rhs : List Token) : Prop where
  lhs_spells : SpellsStack aliases stack kept lhs.val
  arrow_val : arrow.val = Call.arrow
  rhs_spells : SpellsCallee callee args (Text.unwords (rhs.map (·.val)))

/-! ### Reading a call -/

variable {aliases : AliasTable} {stack : Reg} {kept : Nat} {callee : List Char}
  {args : List Argument} {lhs arrow : Token} {rhs : List Token}

/-- An immediate that is a number begins no alias. -/
theorem isName_of_numericImm {t : List Char} {k : Int} (h : numericImm? t = some k) :
    Alias.isName t = false := by
  obtain ⟨value, hsplit, hvalue⟩ := numericImm?_eq_some_iff.mp h
  obtain ⟨⟨a, b⟩, hcut, hab⟩ := Option.map_eq_some_iff.mp hsplit
  obtain ⟨rfl, -⟩ := Text.cutLast?_eq_some_iff.mp hcut
  obtain ⟨rfl, -⟩ := Prod.mk.inj hab
  cases a with
  | nil => rfl
  | cons c rest =>
    have hmark (d : Char) (hd : d = '$' ∨ d = '&') : c ≠ d := by
      rintro rfl
      rcases hd with rfl | rfl <;>
        simp [Numeral.read?, Numeral.readMagnitude?, Numeral.readDigits?, Numeral.isDigit]
          at hvalue
    simp [Alias.isName, hmark]

theorem Argument.IsSpelled.isName {arg : Argument} {ts : List (List Char)} (h : arg.IsSpelled ts)
    {t : List Char} (ht : t ∈ ts) : Alias.isName t = false := by
  have hsource : Alias.isName arg.source.text = false := by
    rcases arg.source with _ | (_ | _ | _) | _ | (_ | _ | _) <;> rfl
  rw [IsSpelled] at h
  split at h
  · rw [h, List.mem_singleton] at ht
    exact ht ▸ hsource
  · obtain ⟨u, rfl, hu⟩ := h
    rw [List.mem_cons, List.mem_singleton] at ht
    rcases ht with rfl | rfl
    · exact hsource
    · exact isName_of_numericImm hu

/-- Arguments that are spelled in the plain way are the same once aliases have been replaced. -/
theorem mapM_substitute {items : List (List Char)}
    (h : List.Forall₂ (fun arg item => Argument.IsSpelled arg (Text.words item)) args items) :
    items.mapM (fun item => aliases.substitute ((Text.words item).map arrow.withVal)) =
      .ok (items.map fun item => (Text.words item).map arrow.withVal) := by
  induction h with
  | nil => rfl
  | @cons arg item args items hspelled _ ih =>
    have hitem : aliases.substitute ((Text.words item).map arrow.withVal)
        = .ok ((Text.words item).map arrow.withVal) := by
      refine aliases.substitute_of_no_alias fun tk htk => ?_
      obtain ⟨t, ht, rfl⟩ := List.mem_map.mp htk
      exact hspelled.isName ht
    rw [List.mapM_cons, hitem, ih]
    rfl

/-- The callee and the arguments of a call are read as they were written. -/
theorem readCallee?_written {t : List Char} (h : SpellsCallee callee args t)
    {label : List Char} {items : List (List Char)} (hread : readCallee? t = .ok (label, items)) :
    label = callee ∧
      List.Forall₂ (fun arg item => Argument.IsSpelled arg (Text.words item)) args items := by
  obtain ⟨head, inner, rfl, hhead, rfl, hargs⟩ := h.exists_brackets
  have hclose : Text.trimEnd (inner ++ [')']) = inner ++ [')'] := Text.trimEnd_append rfl inner
  rw [readCallee?, Text.cutFirst?_append hhead] at hread
  dsimp only at hread
  rw [hclose, Text.dropFinal?_append] at hread
  dsimp only at hread
  split at hread
  · cases hread
  · cases hread
    refine ⟨rfl, ?_⟩
    rw [← Text.map_words_items] at hargs
    exact List.forall₂_map_right_iff.mp hargs

/-- The stack of a call and the number of words to be kept are read as they were written. -/
theorem readStack?_written {t : List Char} (h : SpellsStack aliases stack kept t)
    {raw : List Char} {n : Nat} (hread : readStack? t = .ok (raw, n)) :
    aliases.stackReg? raw = .ok stack ∧ n = kept ∧ kept ≤ 0xFFFF := by
  cases h with
  | bare hoperand hstack =>
    rw [readStack?, Text.cutFirst?_eq_none hoperand] at hread
    cases hread
    exact ⟨hstack, rfl, Nat.zero_le _⟩
  | kept hoperand hstack hnumeral =>
    rw [readStack?, Text.cutFirst?_append hoperand] at hread
    dsimp only at hread
    rw [Text.dropFinal?_append, Option.bind_some, hnumeral] at hread
    dsimp only at hread
    split at hread
    · next hle =>
      cases hread
      refine ⟨hstack, Int.toNat_natCast kept, ?_⟩
      omega
    · cases hread

/-- **A call is read as it was written.** -/
theorem read?_written (h : IsWritten aliases stack kept callee args lhs arrow rhs) {c : Call}
    (hread : Call.read? aliases [lhs] arrow rhs = .ok c) :
    c.stack = stack ∧ c.kept = kept ∧ kept ≤ 0xFFFF ∧ c.label = callee ∧
      List.Forall₂ (fun arg ts => Argument.IsSpelled arg (ts.map (·.val))) args c.args := by
  rw [Call.read?] at hread
  obtain ⟨⟨raw, n⟩, hstack, hread⟩ := bind_eq_ok_iff.mp hread
  obtain ⟨hreg, rfl, hle⟩ := readStack?_written h.lhs_spells (at?_eq_ok_iff.mp hstack)
  dsimp only at hread
  rw [hreg, at?_ok, ok_bind] at hread
  obtain ⟨⟨label, items⟩, hcallee, hread⟩ := bind_eq_ok_iff.mp hread
  obtain ⟨rfl, hitems⟩ := readCallee?_written h.rhs_spells (at?_eq_ok_iff.mp hcallee)
  dsimp only at hread
  rw [mapM_substitute hitems, ok_bind, pure_eq_ok_iff] at hread
  subst hread
  refine ⟨rfl, rfl, hle, rfl, ?_⟩
  refine List.forall₂_map_right_iff.mpr (hitems.imp fun arg item hspelled => ?_)
  have hvals : ((Text.words item).map arrow.withVal).map (·.val) = Text.words item := by
    rw [List.map_map]
    exact List.map_id _
  rw [hvals]
  exact hspelled

end Call

/-! ### Lines that copy -/

/-- A line of code that copies: its operands, an immediate beside the source as it is spelled and as
it is meant, and whether it pushes. -/
structure CopyLine where
  src : Source
  imm : Option (List Char × Imm)
  dst : Destination
  push : Bool

namespace CopyLine

/-- The words of a line. -/
def words (l : CopyLine) : List (List Char) :=
  "copy".toList :: l.src.text :: ((l.imm.map (·.1)).toList
    ++ l.dst.text :: if l.push then ["push".toList] else [])

/-- The operation on a line. -/
def operation (l : CopyLine) : Operation :=
  { opcode := .copy, src := l.src, dst := l.dst, srcImm := (l.imm.map (·.2)).getD .zero,
    dstImm := .zero, effect := .always, push := l.push }

/-- Whether the immediate of a line is read as it is meant, if it is an immediate at all. -/
def IsMeant (l : CopyLine) (scopes : Scopes) : Prop :=
  ∀ x ∈ l.imm, ∀ part, Part.read? .copy scopes x.1 = .ok part → part = .imm x.2

/-- The immediate of a line as a piece of a draft. -/
def immPiece (l : CopyLine) (tk : Token) : Option (Token × Imm) :=
  l.imm.map fun x => (tk.withVal x.1, x.2)

/-- The push of a line as a piece of a draft. -/
def pushPiece (l : CopyLine) (tk : Token) : Option (Token × Bool) :=
  if l.push then some (tk.withVal "push".toList, true) else none

/-- The draft of a line. -/
def draft (l : CopyLine) (tk : Token) : Draft :=
  { operands := [(tk.withVal l.src.text, .ofSource l.src),
      (tk.withVal l.dst.text, .ofDestination l.dst)]
    srcImm := l.immPiece tk
    push := l.pushPiece tk }

variable {l : CopyLine} {scopes : Scopes} {tk : Token}

theorem map_words (l : CopyLine) (tk : Token) : l.words.map tk.withVal =
    tk.withVal "copy".toList :: tk.withVal l.src.text :: (Draft.tokens (l.immPiece tk)
      ++ tk.withVal l.dst.text :: Draft.tokens (l.pushPiece tk)) := by
  obtain ⟨src, imm, dst, push⟩ := l
  cases imm <;> cases push <;> rfl

/-- A line that is read into a draft is read into its own. -/
theorem read_words (hmeant : l.IsMeant scopes) {d : Draft}
    (h : Draft.read .copy scopes {} (l.words.map tk.withVal).tail = .ok d) : d = l.draft tk := by
  have himm : ∀ x ∈ l.immPiece tk, Part.read? .copy scopes x.1.val = .ok (.imm x.2) := by
    intro x hx
    have hmem : x.1 ∈ (l.words.map tk.withVal).tail := by
      rw [map_words, hx]
      simp [Draft.tokens]
    obtain ⟨part, hpart⟩ := Draft.exists_part_of_read h hmem
    obtain ⟨y, hy, rfl⟩ := Option.map_eq_some_iff.mp hx
    obtain rfl := hmeant y hy part hpart
    exact hpart
  have hpush : ∀ x ∈ l.pushPiece tk, Part.read? .copy scopes x.1.val = .ok (.push x.2) := by
    intro x hx
    rw [pushPiece] at hx
    split at hx
    · cases hx
      rfl
    · cases hx
  have hwritten := Draft.read_written none (tk.withVal l.src.text, .ofSource l.src)
    (l.immPiece tk) (tk.withVal l.dst.text, .ofDestination l.dst) none none (l.pushPiece tk)
    (by simp) (Part.read?_source l.src) himm (Part.read?_destination l.dst) (by simp) (by simp)
    hpush
  rw [map_words] at h
  exact Except.ok.inj (h.symm.trans hwritten)

/-- The draft of a line describes its operation alone. -/
theorem eq_operation {op : Operation} (h : (l.draft tk).Describes .copy op) :
    op = l.operation := by
  obtain ⟨src, dst, hoperands, hsrc, hdst⟩ := h.operands
  have hsrcImm := h.srcImm
  have hpush := h.push
  have hdstImm := h.dstImm
  have heffect := h.effect
  obtain ⟨rfl, hrest⟩ := List.cons.inj hoperands
  obtain ⟨rfl, -⟩ := List.cons.inj hrest
  rw [Operand.source?_ofSource, Option.some.injEq] at hsrc
  rw [Operand.destination?_ofDestination, Option.some.injEq] at hdst
  have hopcode := h.opcode_eq_copy
  obtain ⟨opcode, _, _, _, _, _, _⟩ := op
  obtain rfl : opcode = .copy := hopcode
  dsimp only at hsrc hdst hsrcImm hpush hdstImm heffect
  subst hsrc hdst hsrcImm hpush hdstImm heffect
  rw [operation, draft, immPiece, pushPiece]
  cases l.imm <;> cases l.push <;> rfl

/-- A line that is read is read as its own operation. -/
theorem readLine_words (hmeant : l.IsMeant scopes) {s : Option Statement} {next : Scopes}
    (h : readLine scopes (l.words.map tk.withVal) = .ok (s, next)) :
    s = some (.op l.operation) ∧ next = scopes := by
  rw [map_words, @readLine_mnemonic .copy _ _ _ rfl, map_eq_ok_iff] at h
  obtain ⟨op, hop, hs⟩ := h
  obtain ⟨d, hd, hdescribes⟩ := readOperation_eq_ok_iff.mp hop
  have hdraft : d = l.draft tk := read_words hmeant (by rw [map_words]; exact hd)
  obtain ⟨rfl, rfl⟩ := Prod.mk.inj hs
  exact ⟨congrArg (fun op => some (Statement.op op)) (eq_operation (hdraft ▸ hdescribes)), rfl⟩

end CopyLine

/-- Lines that copy come to their operations. -/
theorem Context.statements_copyLines {ctx next : Context} {tk : Token} {ls : List CopyLine}
    (hmeant : ∀ l ∈ ls, l.IsMeant ctx.scopes) {stmts : List (Located Statement)}
    (h : ctx.statements (ls.map fun l => l.words.map tk.withVal) = (.ok stmts, next)) :
    stmts.map (·.val) = ls.map fun l => .op l.operation := by
  induction ls generalizing ctx next stmts with
  | nil =>
    rw [List.map_nil, statements, Prod.mk.injEq, Except.ok.injEq] at h
    rw [← h.1]
    rfl
  | cons l ls ih =>
    obtain ⟨stmt, mid, others, hstmt, hothers, rfl⟩ := statements_cons_eq_ok_iff.mp h
    obtain ⟨op, hread, rfl, rfl⟩ := @exists_op_of_statement _ _ .copy _ _ rfl _ hstmt
    obtain ⟨hop, -⟩ := CopyLine.readLine_words (hmeant l List.mem_cons_self) hread
    obtain rfl := Statement.op.inj (Option.some.inj hop)
    have hvals := @ih ⟨ctx.aliases.track l.operation, ctx.scopes⟩ _
      (fun k hk => hmeant k (List.mem_cons_of_mem l hk)) _ hothers
    rw [List.map_cons, ← hvals]
    rfl

/-! ### The lines of a call -/

/-- Numbers are meant as they are read. -/
theorem CopyLine.isMeant_of_numericImm {l : CopyLine} (scopes : Scopes)
    (h : ∀ x ∈ l.imm, ∃ k, numericImm? x.1 = some k ∧ x.2 = .num k) : l.IsMeant scopes := by
  intro x hx part hpart
  obtain ⟨k, hk, hnum⟩ := h x hx
  rw [Part.read?_numericImm hk, Except.ok.injEq] at hpart
  rw [hnum, ← hpart]

namespace Call

variable {stack : Reg} {kept : Nat} {callee : List Char} {args : List Argument}

theorem add?_eq_some_iff {a b sum : Int} :
    Alias.add? a b = some sum ↔ (-2147483648 ≤ a + b ∧ a + b ≤ 2147483647) ∧ a + b = sum := by
  rw [Alias.add?, Option.ite_none_right_eq_some, Option.some.injEq]

theorem text_eq_memText_iff {arg : Argument} :
    arg.source.text = memText stack ↔ arg.source = .mem stack := by
  rcases arg.source with _ | (_ | _ | _) | _ | (_ | _ | _) <;> cases stack <;> decide

/-- Words that spell the operand of an argument, and its offset by a number or, where that is zero,
by nothing. -/
def Argument.IsRelocated (arg : Argument) (stack : Reg) (moved : Nat) (us : List (List Char)) :
    Prop :=
  ∃ imm : Option (List Char × Imm), us = arg.source.text :: (imm.map (·.1)).toList ∧
    (imm.map (·.2)).getD .zero = .num (arg.offset stack moved) ∧
    ∀ x ∈ imm, ∃ k, numericImm? x.1 = some k ∧ x.2 = .num k

/-- An argument that lies on the stack is moved along with it. -/
theorem relocate_stack {arg : Argument} {ts us : List (List Char)} {moved : Nat}
    (hstack : arg.source = .mem stack) (hspelled : arg.IsSpelled ts)
    (hmoved : 0 < moved ∧ moved ≤ Numeral.limit) (h : relocate stack moved ts = .ok us) :
    arg.IsRelocated stack moved us := by
  have htext := text_eq_memText_iff.mpr hstack
  have hoffset : arg.offset stack moved = arg.imm?.getD 0 + moved := by
    rw [Argument.offset, if_pos hstack]
  rw [Argument.IsSpelled] at hspelled
  rw [Argument.IsRelocated, hoffset]
  rcases harg : arg.imm? with _ | k <;> rw [harg] at hspelled
  · subst hspelled
    rw [relocate, if_pos htext] at h
    cases h
    refine ⟨some (immText moved, .num moved), rfl, ?_, ?_⟩
    · rw [Option.getD_none, Int.zero_add]
      rfl
    · rintro x ⟨⟩
      exact ⟨moved, numericImm?_immText hmoved.2, rfl⟩
  · obtain ⟨t, rfl, ht⟩ := hspelled
    obtain ⟨value, -, hvalue⟩ := numericImm?_eq_some_iff.mp ht
    have hk := Numeral.natAbs_le_of_read? hvalue
    rw [relocate, if_pos htext, ht] at h
    dsimp only at h
    rcases hadd : Alias.add? moved k with _ | sum <;> rw [hadd] at h
    · cases h
    · obtain ⟨hle, rfl⟩ := add?_eq_some_iff.mp hadd
      have hlimit : ((moved : Int) + k).natAbs ≤ Numeral.limit := by
        rw [Numeral.limit] at *
        omega
      cases h
      refine ⟨some (immText (moved + k), .num (moved + k)), rfl, ?_, ?_⟩
      · rw [Option.getD_some, Int.add_comm]
        rfl
      · rintro x ⟨⟩
        exact ⟨_, numericImm?_immText hlimit, rfl⟩

/-- Other arguments stay as they are spelled. -/
theorem relocate_of_ne_stack {arg : Argument} {ts us : List (List Char)} {moved : Nat}
    (hstack : arg.source ≠ .mem stack) (hspelled : arg.IsSpelled ts)
    (h : relocate stack moved ts = .ok us) : arg.IsRelocated stack moved us := by
  have htext := mt text_eq_memText_iff.mp hstack
  have hoffset : arg.offset stack moved = arg.imm?.getD 0 := by
    rw [Argument.offset, if_neg hstack, Int.add_zero]
  rw [Argument.IsSpelled] at hspelled
  rw [Argument.IsRelocated, hoffset]
  rcases harg : arg.imm? with _ | k <;> rw [harg] at hspelled
  · subst hspelled
    rw [relocate, if_neg htext] at h
    cases h
    exact ⟨none, rfl, rfl, by simp⟩
  · obtain ⟨t, rfl, ht⟩ := hspelled
    rw [relocate, if_neg htext] at h
    cases h
    refine ⟨some (t, .num k), rfl, rfl, ?_⟩
    rintro x ⟨⟩
    exact ⟨k, ht, rfl⟩

/-- In either case the argument is spelled by its offset. -/
theorem relocate_spelled {arg : Argument} {ts us : List (List Char)} {moved : Nat}
    (hspelled : arg.IsSpelled ts) (hmoved : 0 < moved ∧ moved ≤ Numeral.limit)
    (h : relocate stack moved ts = .ok us) : arg.IsRelocated stack moved us := by
  by_cases hstack : arg.source = .mem stack
  · exact relocate_stack hstack hspelled hmoved h
  · exact relocate_of_ne_stack hstack hspelled h

/-- The lines that push arguments are lines that copy, with the operations of the instructions that
push them. -/
theorem pushLines_spelled {tss : List (List Token)} {moved : Nat} {lines : List (List (List Char))}
    (hspelled : List.Forall₂ (fun arg ts => Argument.IsSpelled arg (ts.map (·.val))) args tss)
    (hmoved : 0 < moved ∧ moved + args.length ≤ Numeral.limit)
    (h : pushLines stack moved tss = .ok lines) :
    ∃ ls : List CopyLine, lines = ls.map (·.words) ∧
      ls.map (·.operation) = (pushInsts stack moved args).map Inst.asWritten ∧
      ∀ l ∈ ls, ∀ scopes, l.IsMeant scopes := by
  induction hspelled generalizing moved lines with
  | nil =>
    cases h
    exact ⟨[], rfl, rfl, by simp⟩
  | @cons arg ts args tss hfirst _ ih =>
    rw [List.length_cons] at hmoved
    simp only [pushLines, bind_eq_ok_iff, pure_eq_ok_iff] at h
    obtain ⟨us, hus, rest, hrest, rfl⟩ := h
    obtain ⟨imm, rfl, hoffset, hnumeric⟩ := relocate_spelled hfirst ⟨hmoved.1, by omega⟩ hus
    obtain ⟨ls, rfl, hoperations, hmeant⟩ := @ih (moved + 1) rest (by omega) hrest
    refine ⟨⟨arg.source, imm, .mem stack, true⟩ :: ls, ?_, ?_, ?_⟩
    · rw [List.map_cons]
      simp [pushLine, CopyLine.words]
      rfl
    · rw [List.map_cons, hoperations, pushInsts, List.map_cons]
      refine congrArg (· :: _) ?_
      rw [CopyLine.operation]
      dsimp only
      rw [hoffset]
      rfl
    · intro l hl scopes
      rcases List.mem_cons.mp hl with rfl | hl
      · exact CopyLine.isMeant_of_numericImm scopes hnumeric
      · exact hmeant l hl scopes

/-- The line that keeps words of a stack, where there are any to be kept. -/
def keepLines (stack : Reg) (kept : Nat) : List CopyLine :=
  if kept = 0 then []
  else [⟨.reg stack, some (immText (-kept), .num (-kept)), .reg stack, false⟩]

/-- The line that pushes the return address. -/
def returnLine (stack : Reg) (ahead : Nat) : CopyLine :=
  ⟨.pc, some (immText ahead, .num ahead), .mem stack, true⟩

/-- The line that jumps to the callee. -/
def jumpLine (callee : List Char) : CopyLine :=
  ⟨.pc, some (callee ++ ".disp".toList, .ref ⟨.named callee, .displacement⟩), .pc, false⟩

theorem isMeant_keepLines (hkept : kept ≤ 0xFFFF) {l : CopyLine} (hl : l ∈ keepLines stack kept)
    (scopes : Scopes) : l.IsMeant scopes := by
  rw [keepLines] at hl
  split at hl
  · cases hl
  · obtain rfl := List.mem_singleton.mp hl
    refine CopyLine.isMeant_of_numericImm scopes ?_
    rintro x ⟨⟩
    refine ⟨-kept, numericImm?_immText ?_, rfl⟩
    rw [Numeral.limit]
    omega

theorem isMeant_returnLine {ahead : Nat} (hahead : ahead ≤ Numeral.limit) (scopes : Scopes) :
    (returnLine stack ahead).IsMeant scopes := by
  refine CopyLine.isMeant_of_numericImm scopes ?_
  rintro x ⟨⟩
  exact ⟨ahead, numericImm?_immText hahead, rfl⟩

/-- A label that is not taken for something else is meant as itself. -/
theorem isMeant_jumpLine (hnumeral : Numeral.read? callee = none) (hloop : callee ≠ "loop".toList)
    (hbreak : callee ≠ "break".toList) (scopes : Scopes) : (jumpLine callee).IsMeant scopes := by
  rintro x ⟨⟩ part hpart
  have hsplit : splitKind? (callee ++ ".disp".toList) = some (callee, "disp".toList) :=
    @splitKind?_append "disp".toList (by decide) callee
  rw [@Part.read?_of_refKind .copy scopes _ _ _ .displacement hsplit rfl, map_eq_ok_iff] at hpart
  obtain ⟨imm, himm, rfl⟩ := hpart
  rw [Imm.read?, hnumeral] at himm
  dsimp only at himm
  rw [if_neg hloop, if_neg hbreak] at himm
  obtain ⟨label, hlabel, himm⟩ := bind_eq_ok_iff.mp himm
  obtain rfl := pure_eq_ok_iff.mp himm
  rw [(Label.read?_eq_ok_iff.mp hlabel).1]

/-- The lines of a call, taken apart: those that keep words, the one that pushes the return address,
those that push arguments, and the jump. -/
theorem lines_eq_ok_iff {c : Call} {lines : List (List (List Char))} :
    c.lines = .ok lines ↔ ∃ pushes, pushLines c.stack (1 + c.kept) c.args = .ok pushes ∧
      lines = (keepLines c.stack c.kept).map (·.words) ++
        pushLine c.stack [Source.pc.text, immText (c.args.length + 2)] ::
          (pushes ++ [["copy".toList, Source.pc.text, c.label ++ ".disp".toList,
            Destination.pc.text]]) := by
  have hkeep : (keepLines c.stack c.kept).map (·.words) = if c.kept = 0 then []
      else [["copy".toList, regText c.stack, immText (-(c.kept : Int)), regText c.stack]] := by
    rw [keepLines]
    split <;> rfl
  rw [hkeep]
  simp only [Call.lines, bind_eq_ok_iff, pure_eq_ok_iff, List.append_assoc, List.cons_append,
    List.nil_append]
  constructor
  · rintro ⟨pushes, hpushes, rfl⟩
    exact ⟨pushes, hpushes, rfl⟩
  · rintro ⟨pushes, hpushes, rfl⟩
    exact ⟨pushes, hpushes, rfl⟩

/-- **The lines of a call are the instructions of the calling convention**, each on a line of its
own, with the jump to the callee behind them. -/
theorem lines_written {c : Call} (hkept : c.kept ≤ 0xFFFF) (hargs : args.length ≤ 0xFFFF)
    (hspelled : List.Forall₂ (fun arg ts => Argument.IsSpelled arg (ts.map (·.val))) args c.args)
    {lines : List (List (List Char))} (h : c.lines = .ok lines) :
    ∃ ls : List CopyLine, lines = (ls ++ [jumpLine c.label]).map (·.words) ∧
      ls.map (·.operation) = (frameInsts c.stack c.kept args).map Inst.asWritten ∧
      ∀ l ∈ ls, ∀ scopes, l.IsMeant scopes := by
  obtain ⟨pushes, hpushes, rfl⟩ := lines_eq_ok_iff.mp h
  have hmoved : (1 + c.kept : Int) = ((1 + c.kept : Nat) : Int) := by omega
  rw [hmoved] at hpushes
  obtain ⟨ls, rfl, hoperations, hmeant⟩ :=
    pushLines_spelled hspelled (by rw [Numeral.limit]; omega) hpushes
  refine ⟨keepLines c.stack c.kept ++ returnLine c.stack (args.length + 2) :: ls, ?_, ?_, ?_⟩
  · rw [hspelled.length_eq]
    simp only [List.map_append, List.map_cons, List.append_assoc, List.cons_append, List.map_nil]
    rfl
  · have hkeep : (keepLines c.stack c.kept).map (·.operation)
        = (keepInsts c.stack c.kept).map Inst.asWritten := by
      rw [keepLines, keepInsts]
      split <;> rfl
    rw [List.map_append, hkeep, List.map_cons, hoperations, frameInsts, List.map_append,
      List.map_cons]
    rfl
  · intro l hl scopes
    rcases List.mem_append.mp hl with hl | hl
    · exact isMeant_keepLines hkept hl scopes
    rcases List.mem_cons.mp hl with rfl | hl
    · exact isMeant_returnLine (by rw [Numeral.limit]; omega) scopes
    · exact hmeant l hl scopes

end Call

end Assembly

end WordMachine
