import WordMachine.Proofs.CallLines

/-!
# What a call does to tracked aliases

A call is several operations, and tracked aliases follow each of them. The words kept, the return
address and every argument move the stack down, so the offsets from it go up; behind the call they
are taken back by what the callee will have popped. This file does the sum: what is left is the
number of words kept.

The sum has to come out whatever is written between the brackets. An argument is any row of tokens,
and one of these might well be an operand or a push of its own. But the line that pushes the
argument ends with an operand and a push, of which it takes so many and no more. So what stands
before them is one operand and no push (`Draft.PushedAs`), and the line moves the stack by one word.

## Wrapping around

Offsets are kept in 32 bits and wrap around, on the way as well as at the end. A shift by a sum is
one shift behind the other all the same (`AliasTable.shift_shift`), and no sum is looked at before
the last shift.

## Main results

* `readLine_pushLine`: what a line that pushes an argument is read as
* `Context.shift_of_statements`: what lines one behind another do to offsets
* `Call.exists_of_isCalled`: what the line of a call is read as
* `drift_of_expand`: a call moves the offsets from its stack by the number of words kept
-/

namespace WordMachine

namespace Assembly

/-! ### Shifts -/

namespace Alias

theorem wrap_wrap_add (a b : Int) : wrap (wrap a + b) = wrap (a + b) := Int.bmod_add_bmod

/-- An offset that can be kept is kept as it is. -/
theorem wrap_of_le {offset : Int} (hlow : -2147483648 ≤ offset) (hhigh : offset ≤ 2147483647) :
    wrap offset = offset :=
  Int.bmod_eq_of_le_mul_two (by omega) (by omega)

theorem shift_shift (r : Reg) (m n : Int) (a : Alias) :
    (a.shift r m).shift r n = a.shift r (m + n) := by
  cases a with
  | direct text => rfl
  | tracked reg offset =>
    by_cases hreg : reg = r
    · simp only [shift, if_pos hreg, wrap_wrap_add, Int.add_assoc]
    · simp only [shift, if_neg hreg]

end Alias

theorem AliasTable.shift_shift (t : AliasTable) (r : Reg) (m n : Int) :
    (t.shift r m).shift r n = t.shift r (m + n) := by
  rw [shift, shift, shift, List.map_map]
  refine congrArg AliasTable.mk (List.map_congr_left fun e _ => ?_)
  exact congrArg (e.1, ·) (e.2.shift_shift r m n)

/-! ### Lines of code one behind another -/

theorem exists_getElem?_of_forall₂ {α β : Type} {R : α → β → Prop} {xs : List α} {ys : List β}
    (h : List.Forall₂ R xs ys) {i : Nat} {x : α} (hx : xs[i]? = some x) :
    ∃ y, ys[i]? = some y ∧ R x y := by
  induction h generalizing i with
  | nil => cases hx
  | @cons a b _ _ hab _ ih =>
    cases i with
    | zero =>
      obtain rfl := Option.some.inj hx
      exact ⟨b, rfl, hab⟩
    | succ i => exact ih hx

/-- Whatever operation a row of tokens is read as, it moves the offsets from a register by a number
and does nothing else to aliases, as far as can be told behind another shift. -/
def Moves (scopes : Scopes) (r : Reg) (row : List Token) (n : Int) : Prop :=
  ∀ op next, readLine scopes row = .ok (some (.op op), next) →
    ∀ (t : AliasTable) (delta : Int), (t.track op).shift r delta = t.shift r (n + delta)

/-- Whatever operation a row of tokens is read as, aliases follow it by a shift of the offsets from
a register, and by nothing else. -/
def Shifts (scopes : Scopes) (r : Reg) (row : List Token) (n : Int) : Prop :=
  ∀ op next, readLine scopes row = .ok (some (.op op), next) →
    ∀ t : AliasTable, t.track op = t.shift r n

theorem Shifts.moves {scopes : Scopes} {r : Reg} {row : List Token} {n : Int}
    (h : Shifts scopes r row n) : Moves scopes r row n := by
  intro op next hread t delta
  rw [h op next hread, AliasTable.shift_shift]

/-- Rows of tokens that move the offsets from a register, and by how much in all. -/
inductive MovesAll (scopes : Scopes) (r : Reg) : List (List Token) → Int → Prop
  | nil : MovesAll scopes r [] 0
  | cons {row : List Token} {rows : List (List Token)} {m n : Int} (hrow : Moves scopes r row m)
      (hrows : MovesAll scopes r rows n) : MovesAll scopes r (row :: rows) (m + n)

theorem MovesAll.singleton {scopes : Scopes} {r : Reg} {row : List Token} {n : Int}
    (h : Moves scopes r row n) : MovesAll scopes r [row] n := by
  have hall := MovesAll.cons h .nil
  rwa [Int.add_zero] at hall

theorem MovesAll.append {scopes : Scopes} {r : Reg} {front back : List (List Token)} {m n : Int}
    (hfront : MovesAll scopes r front m) (hback : MovesAll scopes r back n) :
    MovesAll scopes r (front ++ back) (m + n) := by
  induction hfront with
  | nil => rwa [List.nil_append, Int.zero_add]
  | cons hrow _ ih =>
    rw [Int.add_assoc]
    exact .cons hrow ih

namespace Context

variable {ctx next : Context} {rows : List (List Token)} {stmts : List (Located Statement)}

/-- Lines of code come to one operation each. -/
theorem forall₂_of_statements (hcode : ∀ row ∈ rows, IsCode (row.map (·.val)))
    (h : ctx.statements rows = (.ok stmts, next)) :
    List.Forall₂ (fun row stmt => ∃ op, stmt.val = .op op ∧
      readLine ctx.scopes row = .ok (some (.op op), ctx.scopes)) rows stmts := by
  induction rows generalizing ctx stmts with
  | nil =>
    obtain rfl := Except.ok.inj (Prod.mk.inj h).1
    exact .nil
  | cons row rest ih =>
    rw [List.forall_mem_cons] at hcode
    obtain ⟨op, stmt, others, rfl, hop, hread, hothers⟩ := exists_op_of_statements_cons hcode.1 h
    exact .cons ⟨op, hop, hread⟩ (@ih ⟨ctx.aliases.track op, ctx.scopes⟩ _ hcode.2 hothers)

/-- Lines of code move the offsets from a register by as much as they do in all. -/
theorem shift_of_statements {scopes : Scopes} {r : Reg} {n : Int}
    (hmoves : MovesAll scopes r rows n) (hcode : ∀ row ∈ rows, IsCode (row.map (·.val)))
    (hscopes : ctx.scopes = scopes) (h : ctx.statements rows = (.ok stmts, next)) (delta : Int) :
    next.aliases.shift r delta = ctx.aliases.shift r (n + delta) := by
  induction hmoves generalizing ctx stmts with
  | nil =>
    obtain rfl := (Prod.mk.inj h).2
    rw [Int.zero_add]
  | cons hrow _ ih =>
    rw [List.forall_mem_cons] at hcode
    obtain ⟨op, stmt, others, -, -, hread, hothers⟩ := exists_op_of_statements_cons hcode.1 h
    have hbehind := @ih ⟨ctx.aliases.track op, ctx.scopes⟩ _ hcode.2 hscopes hothers
    rw [hscopes] at hread
    rw [hbehind, hrow op _ hread, Int.add_assoc]

end Context

/-! ### Lines that push -/

/-- An operation pushes the source of a draft on a stack, with the immediate that is beside it. The
draft has no other operand, and no push of its own. -/
structure Draft.PushedAs (d : Draft) (stack : Reg) (op : Operation) : Prop where
  src : ∃ x, d.operands = [x] ∧ x.2.source? = some op.src
  no_push : d.push = none
  srcImm : op.srcImm = (d.srcImm.map (·.2)).getD .zero
  opcode : op.opcode = .copy
  dst : op.dst = .mem stack
  push : op.push = true

variable {scopes next : Scopes} {stack : Reg} {tk : Token} {op : Operation}

theorem Part.read?_memText (cls : Class) (scopes : Scopes) (r : Reg) :
    Part.read? cls scopes (memText r) = .ok (.operand (.mem r)) :=
  Part.read?_source (.mem r)

/-- The end of such a line is one more operand and a push. -/
theorem Draft.read_ending {d e : Draft}
    (h : d.read .copy scopes [tk.withVal (memText stack), tk.withVal "push".toList] = .ok e) :
    (∃ x, e.operands = d.operands ++ [x] ∧ x.2 = .mem stack) ∧ d.push = none ∧
      e.srcImm = d.srcImm ∧ (e.push.map (·.2)).getD false = true := by
  obtain ⟨part, mid, hpart, hmid, h⟩ := read_cons_eq_ok_iff.mp h
  obtain rfl := Except.ok.inj ((Part.read?_memText .copy scopes stack).symm.trans hpart)
  obtain ⟨part, last, hpart, hlast, h⟩ := read_cons_eq_ok_iff.mp h
  obtain rfl : Part.push true = part := Except.ok.inj hpart
  obtain rfl : last = e := Except.ok.inj h
  obtain ⟨slot, hslot, rfl⟩ := map_eq_ok_iff.mp hlast
  obtain ⟨hnone, rfl⟩ := once_eq_ok_iff.mp hslot
  rw [add] at hmid
  split at hmid
  · cases hmid
  · obtain rfl := Except.ok.inj hmid
    exact ⟨⟨_, rfl, rfl⟩, hnone, rfl, rfl⟩

/-- **A line that pushes an argument pushes it**, whatever it is: the argument has one operand, and
this is the source of the operation. -/
theorem readLine_pushLine {us : List (List Char)}
    (h : readLine scopes ((Call.pushLine stack us).map tk.withVal) = .ok (some (.op op), next)) :
    ∃ d, Draft.read .copy scopes {} (us.map tk.withVal) = .ok d ∧ d.PushedAs stack op := by
  have hwords : (Call.pushLine stack us).map tk.withVal = tk.withVal (mnemonic .copy) ::
      (us.map tk.withVal ++ [tk.withVal (memText stack), tk.withVal "push".toList]) := by
    rw [Call.pushLine, List.map_append]
    rfl
  rw [hwords, @readLine_mnemonic .copy _ _ _ rfl, map_eq_ok_iff] at h
  obtain ⟨op', hop, hsame⟩ := h
  obtain rfl : op' = op := Statement.op.inj (Option.some.inj (Prod.mk.inj hsame).1)
  obtain ⟨e, he, hdescribes⟩ := readOperation_eq_ok_iff.mp hop
  rw [Draft.read_append] at he
  obtain ⟨d, hd, he⟩ := bind_eq_ok_iff.mp he
  obtain ⟨⟨target, hoperands, htarget⟩, hnone, himm, hpush⟩ := Draft.read_ending he
  -- Two operands in all leave one to the argument.
  obtain ⟨src, dst, htwo, hsrc, hdst⟩ := hdescribes.operands
  have hends : d.operands ++ [target] = [src] ++ [dst] := hoperands.symm.trans htwo
  obtain ⟨hsource, rfl⟩ := List.append_singleton_inj.mp hends
  rw [htarget] at hdst
  exact ⟨d, hd, ⟨src, hsource, hsrc⟩, hnone, himm ▸ hdescribes.srcImm,
    hdescribes.opcode_eq_copy, (Option.some.inj hdst).symm, hdescribes.push.trans hpush⟩

/-- Such a line moves the stack by a word. -/
theorem shifts_pushLine (us : List (List Char)) :
    Shifts scopes stack ((Call.pushLine stack us).map tk.withVal) 1 := by
  intro op next hread t
  obtain ⟨d, -, hpushed⟩ := readLine_pushLine hread
  rw [AliasTable.track, hpushed.dst, hpushed.push]

/-- A line that copies moves what its operation moves. -/
theorem CopyLine.moves_words {l : CopyLine} {n : Int} (hmeant : l.IsMeant scopes)
    (htrack : ∀ t : AliasTable, ∀ delta,
      (t.track l.operation).shift stack delta = t.shift stack (n + delta)) :
    Moves scopes stack (l.words.map tk.withVal) n := by
  intro op next hread
  obtain ⟨hop, -⟩ := readLine_words hmeant hread
  obtain rfl := Statement.op.inj (Option.some.inj hop)
  exact htrack

namespace Call

/-! ### The lines of a call -/

/-- A jump is to somewhere, if it is read at all. -/
theorem exists_isMeant_jump (scopes : Scopes) (callee : List Char) :
    ∃ imm, (⟨.pc, some (callee ++ ".disp".toList, imm), .pc, false⟩ : CopyLine).IsMeant scopes := by
  have hsplit : splitKind? (callee ++ ".disp".toList) = some (callee, "disp".toList) :=
    @splitKind?_append "disp".toList (by decide) callee
  have hread := @Part.read?_of_refKind .copy scopes _ _ _ .displacement hsplit rfl
  rcases himm : Imm.read? callee .displacement scopes with e | imm <;> rw [himm] at hread
  · refine ⟨.zero, ?_⟩
    rintro x ⟨⟩ part hpart
    cases hread.symm.trans hpart
  · refine ⟨imm, ?_⟩
    rintro x ⟨⟩ part hpart
    exact Except.ok.inj (hpart.symm.trans hread)

/-- The line that keeps words, where there is one, moves the stack by as many. -/
theorem shifts_keepLine {kept : Nat} (hkept : kept ≤ 0xFFFF) {l : CopyLine}
    (hl : l ∈ keepLines stack kept) : Shifts scopes stack (l.words.map tk.withVal) kept := by
  intro op next hread t
  obtain ⟨hop, -⟩ := CopyLine.readLine_words (isMeant_keepLines hkept hl scopes) hread
  obtain rfl := Statement.op.inj (Option.some.inj hop)
  rw [keepLines] at hl
  split at hl
  · cases hl
  · obtain rfl := List.mem_singleton.mp hl
    simp [AliasTable.track, CopyLine.operation]

theorem movesAll_keepLines {kept : Nat} (hkept : kept ≤ 0xFFFF) :
    MovesAll scopes stack ((keepLines stack kept).map fun l => l.words.map tk.withVal) kept := by
  have hshifts := fun l hl => @shifts_keepLine scopes stack tk kept hkept l hl
  rw [keepLines] at hshifts ⊢
  split
  · next hzero =>
    rw [hzero]
    exact .nil
  · next hpos =>
    rw [if_neg hpos] at hshifts
    exact .singleton (hshifts _ (List.mem_singleton_self _)).moves

theorem movesAll_pushLines {moved : Int} {args : List (List Token)}
    {lines : List (List (List Char))} (h : pushLines stack moved args = .ok lines) :
    MovesAll scopes stack (lines.map fun line => line.map tk.withVal) args.length := by
  induction args generalizing moved lines with
  | nil =>
    cases h
    exact .nil
  | cons arg rest ih =>
    simp only [pushLines, bind_eq_ok_iff, pure_eq_ok_iff] at h
    obtain ⟨us, -, others, hothers, rfl⟩ := h
    rw [List.length_cons, Int.natCast_succ, Int.add_comm]
    exact .cons (shifts_pushLine us).moves (ih hothers)

/-- The lines of a call move the stack by the words kept, the return address and the arguments. -/
theorem movesAll_lines {c : Call} (hkept : c.kept ≤ 0xFFFF) {lines : List (List (List Char))}
    (h : c.lines = .ok lines) :
    MovesAll scopes c.stack (lines.map fun line => line.map tk.withVal)
      (c.kept + (1 + c.args.length)) := by
  obtain ⟨pushes, hpushes, rfl⟩ := lines_eq_ok_iff.mp h
  obtain ⟨imm, hmeant⟩ := exists_isMeant_jump scopes c.label
  have hstill : ∀ (t : AliasTable) (delta : Int), (t.track (CopyLine.operation ⟨.pc,
      some (c.label ++ ".disp".toList, imm), .pc, false⟩)).shift c.stack delta
        = t.shift c.stack (0 + delta) := by
    intro t delta
    rw [Int.zero_add]
    rfl
  have hjump := @CopyLine.moves_words scopes c.stack tk _ 0 hmeant hstill
  have hbehind := (@movesAll_pushLines scopes c.stack tk _ _ _ hpushes).append (.singleton hjump)
  rw [Int.add_zero] at hbehind
  rw [List.map_append, List.map_cons, List.map_append, List.map_map]
  exact (movesAll_keepLines hkept).append (.cons (shifts_pushLine _).moves hbehind)

/-! ### Calls of any form -/

/-- The tokens of a call: a stack with the words kept on it, an arrow, and a label with the texts of
some arguments. Nothing is asked of these. -/
structure IsCalled (aliases : AliasTable) (stack : Reg) (kept : Nat) (callee : List Char)
    (items : List (List Char)) (lhs arrow : Token) (rhs : List Token) : Prop where
  lhs_spells : SpellsStack aliases stack kept lhs.val
  arrow_val : arrow.val = Call.arrow
  rhs_reads : readCallee? (Text.unwords (rhs.map (·.val))) = .ok (callee, items)

theorem forall₂_of_mapM {ε α β : Type} {f : α → Except ε β} {xs : List α} {ys : List β}
    (h : xs.mapM f = .ok ys) : List.Forall₂ (fun x y => f x = .ok y) xs ys := by
  induction xs generalizing ys with
  | nil =>
    obtain rfl := pure_eq_ok_iff.mp h
    exact .nil
  | cons x xs ih =>
    rw [List.mapM_cons] at h
    obtain ⟨y, hy, h⟩ := bind_eq_ok_iff.mp h
    obtain ⟨rest, hrest, h⟩ := bind_eq_ok_iff.mp h
    obtain rfl := pure_eq_ok_iff.mp h
    exact .cons hy (ih hrest)

variable {ctx next : Context} {stmts : List (Located Statement)} {kept : Nat}
  {callee : List Char} {items : List (List Char)} {lhs arrow : Token} {rhs : List Token}

/-- **A call is read as what its tokens spell**, with the words of its arguments once the aliases in
them have been replaced. -/
theorem exists_of_isCalled (hcalled : IsCalled ctx.aliases stack kept callee items lhs arrow rhs)
    (h : ctx.expand (lhs :: arrow :: rhs) = (.ok stmts, next)) :
    kept ≤ 0xFFFF ∧ ∃ args lines mid,
      List.Forall₂ (fun item arg =>
        ctx.aliases.substitute ((Text.words item).map arrow.withVal) = .ok arg) items args ∧
      (⟨stack, kept, callee, args⟩ : Call).lines = .ok lines ∧
      ctx.statements (lines.map fun line => line.map arrow.withVal) = (.ok stmts, mid) ∧
      next = { mid with aliases := mid.aliases.shift stack (-(args.length + 1 : Int)) } := by
  obtain ⟨c, lines, mid, hread, hlines, hstmts, rfl⟩ :=
    Context.call_eq_ok_iff.mp (Context.call_of_expand hcalled.arrow_val h)
  rw [Call.read?] at hread
  obtain ⟨⟨raw, n⟩, hstack, hread⟩ := bind_eq_ok_iff.mp hread
  obtain ⟨hreg, rfl, hle⟩ := readStack?_written hcalled.lhs_spells (at?_eq_ok_iff.mp hstack)
  dsimp only at hread
  rw [hreg, at?_ok, ok_bind, hcalled.rhs_reads, at?_ok, ok_bind] at hread
  obtain ⟨args, hargs, hread⟩ := bind_eq_ok_iff.mp hread
  obtain rfl := pure_eq_ok_iff.mp hread
  exact ⟨hle, args, lines, mid, forall₂_of_mapM hargs, hlines, hstmts, rfl⟩

/-- Behind a call the words kept are all that the stack has moved by. -/
theorem eq_shift_of_expand (hcalled : IsCalled ctx.aliases stack kept callee items lhs arrow rhs)
    (h : ctx.expand (lhs :: arrow :: rhs) = (.ok stmts, next)) :
    next = { ctx with aliases := ctx.aliases.shift stack kept } := by
  obtain ⟨hkept, args, lines, mid, -, hlines, hstmts, rfl⟩ := exists_of_isCalled hcalled h
  have hcode := isCode_of_mem_rows hlines arrow
  have hscopes : mid.scopes = ctx.scopes := by
    have hscopes := @Context.scopes_statements ctx _ hcode
    rwa [hstmts] at hscopes
  have hmoves := @movesAll_lines ctx.scopes arrow ⟨stack, kept, callee, args⟩ hkept _ hlines
  have hshift := Context.shift_of_statements hmoves hcode rfl hstmts (-(args.length + 1 : Int))
  have hsum : (kept + (1 + args.length) + -(args.length + 1) : Int) = kept := by omega
  rw [hsum] at hshift
  rw [hshift, hscopes]

end Call

open Call

/-- **A call moves the offsets from its stack by the number of words kept**, and does nothing else
to aliases. Whatever its arguments are, it comes to one operation for each of them and two more, and
one for the words kept if there are any.

Offsets are numbers of 32 bits with a sign, and adding to one wraps around at `2 ^ 31`: the offset
behind the call is the sum's residue (`Alias.wrap`), with no complaint if that is another number. An
offset whose sum is below `2 ^ 31` and not below `-2 ^ 31` goes up by just the number of words kept.
-/
theorem drift_of_expand {ctx next : Context} {stmts : List (Located Statement)} {stack : Reg}
    {kept : Nat} {callee : List Char} {items : List (List Char)} {lhs arrow : Token}
    {rhs : List Token}
    (hcalled : IsCalled ctx.aliases stack kept callee items lhs arrow rhs)
    (h : ctx.expand (lhs :: arrow :: rhs) = (.ok stmts, next)) :
    stmts.length = (if kept = 0 then 0 else 1) + items.length + 2 ∧
      (∀ stmt ∈ stmts, ∃ op, stmt.val = .op op) ∧
      (∀ name offset, ctx.aliases.get? name = some (.tracked stack offset) →
        next.aliases.get? name = some (.tracked stack (Alias.wrap (offset + kept))) ∧
        (-2147483648 ≤ offset + kept → offset + kept ≤ 2147483647 →
          next.aliases.get? name = some (.tracked stack (offset + kept)))) ∧
      (∀ name, (∀ offset, ctx.aliases.get? name ≠ some (.tracked stack offset)) →
        next.aliases.get? name = ctx.aliases.get? name) := by
  have hnext := eq_shift_of_expand hcalled h
  obtain ⟨-, args, lines, mid, hargs, hlines, hstmts, -⟩ := exists_of_isCalled hcalled h
  have hops := Context.forall₂_of_statements (isCode_of_mem_rows hlines arrow) hstmts
  have hshifted : ∀ name offset, ctx.aliases.get? name = some (.tracked stack offset) →
      next.aliases.get? name = some (.tracked stack (Alias.wrap (offset + kept))) := by
    intro name offset hget
    rw [hnext, AliasTable.get?_shift, hget, Option.map_some, Alias.shift, if_pos rfl]
  refine ⟨?_, ?_, ?_, ?_⟩
  · rw [← hops.length_eq, List.length_map, length_lines hlines, hargs.length_eq]
  · intro stmt hstmt
    obtain ⟨i, hi⟩ := List.getElem?_of_mem hstmt
    obtain ⟨row, -, op, hop, -⟩ := exists_getElem?_of_forall₂ hops.flip hi
    exact ⟨op, hop⟩
  · intro name offset hget
    refine ⟨hshifted name offset hget, fun hlow hhigh => ?_⟩
    rw [hshifted name offset hget, Alias.wrap_of_le hlow hhigh]
  · intro name hother
    rw [hnext, AliasTable.get?_shift]
    rcases hget : ctx.aliases.get? name with _ | text | ⟨reg, offset⟩
    · rfl
    · rfl
    · have hreg : reg ≠ stack := by
        rintro rfl
        exact hother offset hget
      rw [Option.map_some, Alias.shift, if_neg hreg]

/-- Aliases for the word that a stack points at and the one behind it. -/
def trackedContext : Context :=
  { aliases := AliasTable.defineIndexed {} .r1 0 ["$a".toList, "$b".toList] }

/-- The tokens of a call that keeps two words of that stack, and has one of the aliases and the word
on top of the stack for arguments. -/
def trackedCall : Token × Token × List Token :=
  (⟨⟨1, 1⟩, "1.mem[2]".toList⟩, ⟨⟨1, 10⟩, "<=".toList⟩,
    [⟨⟨1, 13⟩, "f($b,".toList⟩, ⟨⟨1, 19⟩, "1.mem)".toList⟩])

theorem isCalled_trackedCall : IsCalled trackedContext.aliases .r1 2 "f".toList
    ["$b".toList, "1.mem".toList] trackedCall.1 trackedCall.2.1 trackedCall.2.2 := by
  refine ⟨?_, rfl, by decide +kernel⟩
  exact @SpellsStack.kept trackedContext.aliases .r1 "1.mem".toList "2".toList 2 (by decide)
    (by decide +kernel) (by decide +kernel)

theorem exists_expand_trackedCall : ∃ stmts next, trackedContext.expand
    (trackedCall.1 :: trackedCall.2.1 :: trackedCall.2.2) = (.ok stmts, next) := by
  have hok : (trackedContext.expand
      (trackedCall.1 :: trackedCall.2.1 :: trackedCall.2.2)).1.toOption.isSome = true := by
    decide +kernel
  generalize trackedContext.expand (trackedCall.1 :: trackedCall.2.1 :: trackedCall.2.2) = result
    at hok ⊢
  obtain ⟨answer, next⟩ := result
  obtain ⟨stmts, hstmts⟩ := Option.isSome_iff_exists.mp hok
  exact ⟨stmts, next, congrArg (·, next) (toOption_eq_some_iff.mp hstmts)⟩

/-- The call takes five operations, and behind it the second alias is two words further off. -/
theorem drift_of_expand_tracked : ∃ stmts next,
    trackedContext.expand (trackedCall.1 :: trackedCall.2.1 :: trackedCall.2.2)
        = (.ok stmts, next) ∧
      stmts.length = 5 ∧ next.aliases.get? "$b".toList = some (.tracked .r1 3) := by
  obtain ⟨stmts, next, h⟩ := exists_expand_trackedCall
  obtain ⟨hlength, -, htracked, -⟩ := drift_of_expand isCalled_trackedCall h
  have hget : trackedContext.aliases.get? "$b".toList = some (.tracked .r1 1) := by decide
  exact ⟨stmts, next, h, hlength, (htracked _ 1 hget).2 (by decide) (by decide)⟩

end Assembly

end WordMachine
