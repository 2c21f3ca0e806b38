import WordMachine.Proofs.Drift
import WordMachine.Proofs.Relocation

/-!
# Arguments that are read through the stack

An argument that is read through the stack of its call has to reach past what the call has moved the
stack by. Whether it is such an argument is decided by its first word, as text, and how far it
reaches already by its second word. What an argument means is decided elsewhere, when its line is
read. This file puts the two side by side, for arguments of any form.

They agree on the immediate. A second word that is no number leaves room for one, and if the
argument has a number further on, then its line has two numbers beside one operand and is refused
(`Draft.read_withImm`). They do not agree on the operand: it has many spellings, `01.mem` among
them, and parts that are neither operands nor immediates may stand before it. An argument in which
it is not the first word, spelled in the one usual way, stays where it was and is read from another
word.

## Main results

* `Draft.read_withImm`: parts behind an immediate are none themselves
* `Call.readsAt_of_relocate`: what relocation does to the offset that an argument says
* `offset_of_expand`: the offset at which an argument on the stack is read
* `exists_argument_kept_in_place`: an argument on the stack that is not moved along
-/

namespace WordMachine

namespace Assembly

/-! ### Drafts with other immediates -/

namespace Draft

variable {cls : Class} {scopes : Scopes} {d e : Draft} {tk : Token} {tokens : List Token}

/-- A draft with another immediate beside its source. -/
def withImm (d : Draft) (slot : Option (Token × Imm)) : Draft := { d with srcImm := slot }

theorem length_operands_le_of_add {part : Part} (h : d.add tk part = .ok e) :
    d.operands.length ≤ e.operands.length := by
  cases part with
  | operand o =>
    rw [add] at h
    split at h
    · cases h
    · cases h
      rw [List.length_append]
      exact Nat.le_add_right _ _
  | imm i =>
    rw [add] at h
    split at h
    · obtain ⟨slot, -, rfl⟩ := map_eq_ok_iff.mp h
      exact Nat.le_refl _
    · obtain ⟨slot, -, rfl⟩ := map_eq_ok_iff.mp h
      exact Nat.le_refl _
    · cases h
  | _ =>
    obtain ⟨slot, -, rfl⟩ := map_eq_ok_iff.mp h
    exact Nat.le_refl _

theorem length_operands_le_of_read (h : d.read cls scopes tokens = .ok e) :
    d.operands.length ≤ e.operands.length := by
  induction tokens generalizing d with
  | nil =>
    cases h
    exact Nat.le_refl _
  | cons tk rest ih =>
    obtain ⟨part, mid, -, hmid, hrest⟩ := read_cons_eq_ok_iff.mp h
    exact Nat.le_trans (length_operands_le_of_add hmid) (ih hrest)

/-- Only an immediate has to do with the immediates that are there. -/
theorem add_withImm (d : Draft) (slot : Option (Token × Imm)) (tk : Token) {part : Part}
    (hpart : ∀ i, part ≠ .imm i) :
    (d.withImm slot).add tk part = (d.add tk part).map (·.withImm slot) := by
  cases part with
  | operand o =>
    by_cases hfull : d.operands.length = 2 <;> simp [add, withImm, hfull, Except.map]
  | imm i => exact absurd rfl (hpart i)
  | effect eff =>
    simp only [add, withImm]
    cases once d.effect eff tk.val <;> rfl
  | push on =>
    simp only [add, withImm]
    cases once d.push (tk, on) tk.val <;> rfl
  | alu op =>
    simp only [add, withImm]
    cases once d.alu op tk.val <;> rfl

/-- **Parts behind the immediate of an only operand are no immediates themselves.** If they are read
with some immediate there, they are read with any other or none, and leave it as it is. -/
theorem read_withImm {x : Token × Imm} (hone : d.operands.length = 1) (he : e.operands.length = 1)
    (h : (d.withImm (some x)).read cls scopes tokens = .ok e) :
    e.srcImm = some x ∧ ∀ slot, (d.withImm slot).read cls scopes tokens = .ok (e.withImm slot) := by
  induction tokens generalizing d with
  | nil =>
    cases h
    exact ⟨rfl, fun slot => rfl⟩
  | cons tk rest ih =>
    obtain ⟨part, mid, hpart, hmid, hrest⟩ := read_cons_eq_ok_iff.mp h
    have hnone : ∀ i, part ≠ .imm i := by
      rintro i rfl
      rw [add, withImm, hone] at hmid
      cases hmid
    rw [add_withImm d _ tk hnone] at hmid
    obtain ⟨m, hm, rfl⟩ := map_eq_ok_iff.mp hmid
    -- There is no room for a second operand either, since there is none in the end.
    have hlow := length_operands_le_of_add hm
    have hhigh := length_operands_le_of_read hrest
    change m.operands.length ≤ _ at hhigh
    obtain ⟨himm, hread⟩ := ih (by omega) hrest
    refine ⟨himm, fun slot => ?_⟩
    rw [read_cons rest hpart ((add_withImm d slot tk hnone).trans (map_eq_ok_iff.mpr ⟨m, hm, rfl⟩))]
    exact hread slot

/-- A draft says that a memory operand is read at an offset, which is zero if there is none. -/
structure ReadsAt (d : Draft) (r : Reg) (k : Int) : Prop where
  operand : d.operands.map (·.2) = [.mem r]
  srcImm : (d.srcImm.map (·.2)).getD .zero = .num k

theorem ReadsAt.moved {r : Reg} {k : Int} (h : d.ReadsAt r k) (f : Loc → Loc) :
    (d.moved f).ReadsAt r k := by
  have hoperand := h.operand
  have hsrcImm := h.srcImm
  refine ⟨?_, ?_⟩
  · rw [Draft.moved, List.map_map]
    exact hoperand
  · rw [Draft.moved, Option.map_map]
    exact hsrcImm

end Draft

namespace Call

variable {scopes : Scopes} {stack : Reg} {moved k : Int} {texts us : List (List Char)} {tk : Token}
  {d e : Draft}

/-! ### Relocation -/

/-- An argument that begins with the stack is given an immediate, or one that takes the place of the
number that it had. -/
theorem relocate_stack_eq_ok {rest : List (List Char)}
    (h : relocate stack moved (memText stack :: rest) = .ok us) :
    us = memText stack :: immText moved :: rest ∨
      ∃ t others k, rest = t :: others ∧ numericImm? t = some k ∧
        Alias.add? moved k = some (moved + k) ∧
        us = memText stack :: immText (moved + k) :: others := by
  rw [relocate.eq_def] at h
  dsimp only at h
  rw [if_pos rfl] at h
  split at h
  · exact .inl (Except.ok.inj h).symm
  · next t others =>
    split at h
    · exact .inl (Except.ok.inj h).symm
    · next k hk =>
      split at h
      · cases h
      · next sum hsum =>
        obtain ⟨-, rfl⟩ := add?_eq_some_iff.mp hsum
        exact .inr ⟨t, others, k, rfl, hk, hsum, (Except.ok.inj h).symm⟩

theorem relocate_of_ne {rest : List (List Char)} {first : List Char} (h : first ≠ memText stack) :
    relocate stack moved (first :: rest) = .ok (first :: rest) := by
  rw [relocate.eq_def]
  dsimp only
  rw [if_neg h]

/-- The draft of an argument that begins with the stack, as far as its first word. -/
def onStack (stack : Reg) (tk : Token) : Draft :=
  { operands := [(tk.withVal (memText stack), .mem stack)] }

theorem read_memText_cons (rest : List Token) :
    Draft.read .copy scopes {} (tk.withVal (memText stack) :: rest)
      = ((onStack stack tk).withImm none).read .copy scopes rest :=
  Draft.read_cons rest (Part.read?_memText .copy scopes stack) rfl

theorem read_memText_imm_cons {t : List Char} (ht : numericImm? t = some k) (rest : List Token) :
    Draft.read .copy scopes {} (tk.withVal (memText stack) :: tk.withVal t :: rest)
      = ((onStack stack tk).withImm (some (tk.withVal t, .num k))).read .copy scopes rest := by
  rw [read_memText_cons]
  exact Draft.read_cons rest (Part.read?_numericImm ht) rfl

/-- **Relocation is right about immediates.** If an argument that is read through the stack can
still be pushed once it has been relocated, then it is read further on by as much as the stack has
moved, as long as the operand of the stack is its first word, and is read where it was if it is not.
-/
theorem readsAt_of_relocate (hd : Draft.read .copy scopes {} (texts.map tk.withVal) = .ok d)
    (hreads : d.ReadsAt stack k) (hmoved : 0 ≤ moved ∧ moved ≤ Numeral.limit)
    (h : relocate stack moved texts = .ok us)
    (he : Draft.read .copy scopes {} (us.map tk.withVal) = .ok e) (hone : e.operands.length = 1) :
    e.ReadsAt stack (if texts.head? = some (memText stack) then moved + k else k) := by
  rcases texts with _ | ⟨first, rest⟩
  · obtain rfl := Except.ok.inj hd
    cases hreads.operand
  by_cases hfirst : first = memText stack
  · subst hfirst
    rw [List.head?_cons, if_pos rfl]
    rcases relocate_stack_eq_ok h with rfl | ⟨t, others, k', rfl, ht, hadd, rfl⟩
    · have hlimit : moved.natAbs ≤ Numeral.limit := by omega
      rw [List.map_cons, List.map_cons, read_memText_imm_cons (numericImm?_immText hlimit)] at he
      obtain ⟨himm, hread⟩ := Draft.read_withImm rfl hone he
      rw [List.map_cons, read_memText_cons, hread none] at hd
      obtain rfl := Except.ok.inj hd
      obtain rfl : 0 = k := Imm.num.inj hreads.srcImm
      refine ⟨hreads.operand, ?_⟩
      rw [himm, Int.add_zero]
      rfl
    · obtain ⟨hrange, -⟩ := add?_eq_some_iff.mp hadd
      obtain ⟨value, -, hvalue⟩ := numericImm?_eq_some_iff.mp ht
      have hk := Numeral.natAbs_le_of_read? hvalue
      have hsum : (moved + k').natAbs ≤ Numeral.limit := by
        rw [Numeral.limit] at *
        omega
      rw [List.map_cons, List.map_cons, read_memText_imm_cons (numericImm?_immText hsum)] at he
      obtain ⟨himm, hread⟩ := Draft.read_withImm rfl hone he
      rw [List.map_cons, List.map_cons, read_memText_imm_cons ht, hread] at hd
      obtain rfl := Except.ok.inj hd
      obtain rfl : k' = k := Imm.num.inj hreads.srcImm
      refine ⟨hreads.operand, ?_⟩
      rw [himm]
      rfl
  · rw [relocate_of_ne hfirst] at h
    obtain rfl := Except.ok.inj h
    obtain rfl := Except.ok.inj (hd.symm.trans he)
    rw [List.head?_cons, if_neg (by simpa using hfirst)]
    exact hreads

/-- The line that pushes an argument stands where the argument stood. -/
theorem getElem?_pushLines {args : List (List Token)} {lines : List (List (List Char))}
    (h : pushLines stack moved args = .ok lines) {i : Nat} {arg : List Token}
    (harg : args[i]? = some arg) : ∃ us, relocate stack (moved + i) (arg.map (·.val)) = .ok us ∧
      lines[i]? = some (pushLine stack us) := by
  induction args generalizing moved lines i with
  | nil => cases harg
  | cons first rest ih =>
    simp only [pushLines, bind_eq_ok_iff, pure_eq_ok_iff] at h
    obtain ⟨us, hus, others, hothers, rfl⟩ := h
    cases i with
    | zero =>
      obtain rfl := Option.some.inj harg
      exact ⟨us, by rwa [Int.natCast_zero, Int.add_zero], rfl⟩
    | succ i =>
      obtain ⟨vs, hvs, hline⟩ := ih hothers harg
      refine ⟨vs, ?_, hline⟩
      rwa [Int.add_assoc, Int.add_comm 1] at hvs

/-- In front of the arguments there are the line that keeps words, if there is one, and the one that
pushes the return address. -/
theorem getElem?_lines {c : Call} {lines : List (List (List Char))} (h : c.lines = .ok lines)
    {i : Nat} {arg : List Token} (harg : c.args[i]? = some arg) :
    ∃ us, relocate c.stack (1 + c.kept + i) (arg.map (·.val)) = .ok us ∧
      lines[(if c.kept = 0 then 0 else 1) + 1 + i]? = some (pushLine c.stack us) := by
  obtain ⟨pushes, hpushes, rfl⟩ := lines_eq_ok_iff.mp h
  obtain ⟨us, hus, hline⟩ := getElem?_pushLines hpushes harg
  refine ⟨us, hus, ?_⟩
  have hfront :
      ((keepLines c.stack c.kept).map (·.words)).length = if c.kept = 0 then 0 else 1 := by
    rw [keepLines, List.length_map]
    split <;> rfl
  have hlt : i < pushes.length := (List.getElem?_eq_some_iff.mp hline).1
  rw [List.getElem?_append_right (by omega), hfront, Nat.add_assoc, Nat.add_sub_cancel_left,
    Nat.add_comm 1, List.getElem?_cons_succ, List.getElem?_append_left hlt]
  exact hline

end Call

open Call

/-- **Where an argument on the stack is read.** Let an argument of a call be read through its stack,
at an offset. If its first word is the operand of the stack, spelled in the usual way, then the
operation that pushes it reads it further on by the number of words kept and by its own number among
the arguments, from one. In every other spelling it is read at its old offset. The two numbers
together have to be one that can be read back. -/
theorem offset_of_expand {ctx next : Context} {stmts : List (Located Statement)} {stack : Reg}
    {kept : Nat} {callee : List Char} {items : List (List Char)} {lhs arrow : Token}
    {rhs : List Token}
    (hcalled : IsCalled ctx.aliases stack kept callee items lhs arrow rhs)
    (h : ctx.expand (lhs :: arrow :: rhs) = (.ok stmts, next))
    {i : Nat} {item : List Char} (hitem : items[i]? = some item) {arg : List Token}
    (harg : ctx.aliases.substitute ((Text.words item).map arrow.withVal) = .ok arg)
    {d : Draft} (hd : Draft.read .copy ctx.scopes {} arg = .ok d) {k : Int}
    (hreads : d.ReadsAt stack k) (hlimit : kept + (i + 1) ≤ Numeral.limit) :
    ∃ stmt op, stmts[(if kept = 0 then 0 else 1) + 1 + i]? = some stmt ∧ stmt.val = .op op ∧
      op.opcode = .copy ∧ op.src = .mem stack ∧ op.dst = .mem stack ∧ op.push = true ∧
      op.srcImm = .num (if (arg.map (·.val)).head? = some (memText stack) then k + kept + (i + 1)
        else k) := by
  obtain ⟨-, args, lines, mid, hargs, hlines, hstmts, -⟩ := exists_of_isCalled hcalled h
  obtain ⟨arg', hget, harg'⟩ := exists_getElem?_of_forall₂ hargs hitem
  obtain rfl := Except.ok.inj (harg.symm.trans harg')
  obtain ⟨us, hus, hline⟩ := getElem?_lines hlines hget
  have hops := Context.forall₂_of_statements (isCode_of_mem_rows hlines arrow) hstmts
  have hrow : (lines.map fun line => line.map arrow.withVal)[(if kept = 0 then 0 else 1) + 1 + i]?
      = some ((pushLine stack us).map arrow.withVal) := by
    rw [List.getElem?_map, hline]
    rfl
  obtain ⟨stmt, hstmt, op, hop, hread⟩ := exists_getElem?_of_forall₂ hops hrow
  obtain ⟨e, he, hpushed⟩ := readLine_pushLine hread
  obtain ⟨x, hx, hsrc⟩ := hpushed.src
  -- The words of the argument say the same wherever they stand.
  have hplace : arg.map (.moved fun _ => arrow.loc) = (arg.map (·.val)).map arrow.withVal := by
    rw [List.map_map]
    rfl
  have hd' := Draft.read_moved (fun _ => arrow.loc) .copy ctx.scopes {} arg
  rw [hplace, hd] at hd'
  have hkept : 0 ≤ (1 + kept + i : Int) ∧ (1 + kept + i : Int) ≤ Numeral.limit := by omega
  have hemitted := readsAt_of_relocate hd' (hreads.moved _) hkept hus he (by rw [hx]; rfl)
  have hsource : x.2 = .mem stack := by
    have hoperand := hemitted.operand
    rw [hx] at hoperand
    exact (List.cons.inj hoperand).1
  rw [hsource] at hsrc
  refine ⟨stmt, op, hstmt, hop, hpushed.opcode, (Option.some.inj hsrc).symm, hpushed.dst,
    hpushed.push, ?_⟩
  rw [hpushed.srcImm, hemitted.srcImm]
  have hsum : (1 + kept + i + k : Int) = k + kept + (i + 1) := by omega
  rw [hsum]

/-- The tokens of a call with two arguments on its stack, one of them in an unusual spelling. -/
def mixedCall : Token × Token × List Token :=
  (⟨⟨1, 1⟩, "1.mem[2]".toList⟩, ⟨⟨1, 10⟩, "<=".toList⟩,
    [⟨⟨1, 13⟩, "go(01.mem,".toList⟩, ⟨⟨1, 24⟩, "1.mem".toList⟩, ⟨⟨1, 30⟩, "3.imm)".toList⟩])

theorem isCalled_mixedCall : IsCalled {} .r1 2 "go".toList ["01.mem".toList, "1.mem 3.imm".toList]
    mixedCall.1 mixedCall.2.1 mixedCall.2.2 := by
  refine ⟨?_, rfl, by decide +kernel⟩
  exact @SpellsStack.kept {} .r1 "1.mem".toList "2".toList 2 (by decide) (by decide +kernel)
    (by decide +kernel)

/-- The first argument as drafted from its words, which stand at the arrow. -/
def unusualDraft : Draft := { operands := [(⟨⟨1, 10⟩, "01.mem".toList⟩, .mem .r1)] }

/-- The second argument as drafted. -/
def usualDraft : Draft :=
  { operands := [(⟨⟨1, 10⟩, "1.mem".toList⟩, .mem .r1)]
    srcImm := some (⟨⟨1, 10⟩, "3.imm".toList⟩, .num 3) }

theorem read_unusualDraft :
    Draft.read .copy ({} : Scopes) {} [⟨⟨1, 10⟩, "01.mem".toList⟩] = .ok unusualDraft ∧
      unusualDraft.ReadsAt .r1 0 :=
  ⟨rfl, rfl, rfl⟩

theorem read_usualDraft :
    Draft.read .copy ({} : Scopes) {}
        [⟨⟨1, 10⟩, "1.mem".toList⟩, ⟨⟨1, 10⟩, "3.imm".toList⟩] = .ok usualDraft ∧
      usualDraft.ReadsAt .r1 3 :=
  ⟨rfl, rfl, rfl⟩

/-- The operation that pushes the first argument. -/
def unmovedPush : Operation :=
  { opcode := .copy, src := .mem .r1, dst := .mem .r1, srcImm := .num 0, dstImm := .zero,
    effect := .always, push := true }

theorem exists_expand_mixedCall : ∃ stmts next,
    Context.expand {} (mixedCall.1 :: mixedCall.2.1 :: mixedCall.2.2) = (.ok stmts, next) ∧
      stmts[2]?.map (·.val) = some (.op unmovedPush) := by
  have hpush : (Context.expand {}
      (mixedCall.1 :: mixedCall.2.1 :: mixedCall.2.2)).1.toOption.bind
        (fun stmts => stmts[2]?.map (·.val)) = some (.op unmovedPush) := by
    decide +kernel
  generalize Context.expand {} (mixedCall.1 :: mixedCall.2.1 :: mixedCall.2.2) = result at hpush ⊢
  obtain ⟨answer, next⟩ := result
  obtain ⟨stmts, hstmts, hstmt⟩ := Option.bind_eq_some_iff.mp hpush
  exact ⟨stmts, next, congrArg (·, next) (toOption_eq_some_iff.mp hstmts), hstmt⟩

/-- The first argument is read where it was, and the second one four words further on: two were
kept, one is the return address, and one is the first argument. -/
theorem offset_of_expand_mixed : ∃ stmts next,
    Context.expand {} (mixedCall.1 :: mixedCall.2.1 :: mixedCall.2.2) = (.ok stmts, next) ∧
      (∃ stmt op, stmts[2]? = some stmt ∧ stmt.val = .op op ∧ op.srcImm = .num 0) ∧
      ∃ stmt op, stmts[3]? = some stmt ∧ stmt.val = .op op ∧ op.srcImm = .num 7 := by
  obtain ⟨stmts, next, h, -⟩ := exists_expand_mixedCall
  have hunusual : ({} : AliasTable).substitute ((Text.words "01.mem".toList).map
      mixedCall.2.1.withVal) = .ok [⟨⟨1, 10⟩, "01.mem".toList⟩] := by
    decide +kernel
  have husual : ({} : AliasTable).substitute ((Text.words "1.mem 3.imm".toList).map
      mixedCall.2.1.withVal) = .ok [⟨⟨1, 10⟩, "1.mem".toList⟩, ⟨⟨1, 10⟩, "3.imm".toList⟩] := by
    decide +kernel
  have hfirst : ["01.mem".toList, "1.mem 3.imm".toList][0]? = some "01.mem".toList := rfl
  have hsecond : ["01.mem".toList, "1.mem 3.imm".toList][1]? = some "1.mem 3.imm".toList := rfl
  obtain ⟨first, op, hget, hop, -, -, -, -, himm⟩ :=
    offset_of_expand isCalled_mixedCall h hfirst hunusual read_unusualDraft.1
      read_unusualDraft.2 (by rw [Numeral.limit]; omega)
  obtain ⟨second, op', hget', hop', -, -, -, -, himm'⟩ :=
    offset_of_expand isCalled_mixedCall h hsecond husual read_usualDraft.1
      read_usualDraft.2 (by rw [Numeral.limit]; omega)
  exact ⟨stmts, next, h, ⟨first, op, hget, hop, himm.trans (by decide)⟩,
    second, op', hget', hop', himm'.trans (by decide)⟩

/-- **An argument on the stack may not be moved along.** The word `01.mem` is read as the operand of
the stack, like `1.mem`. But the call above, which keeps two words, pushes it from where the stack
points instead of three words further on. -/
theorem exists_argument_kept_in_place : ∃ stmts next,
    Context.expand {} (mixedCall.1 :: mixedCall.2.1 :: mixedCall.2.2) = (.ok stmts, next) ∧
      Draft.read .copy ({} : Scopes) {} [⟨⟨1, 10⟩, "01.mem".toList⟩] = .ok unusualDraft ∧
      unusualDraft.ReadsAt .r1 0 ∧ stmts[2]?.map (·.val) = some (.op unmovedPush) ∧
      unmovedPush.srcImm = .num 0 ∧ unmovedPush.srcImm ≠ .num (0 + 2 + 1) := by
  obtain ⟨stmts, next, h, hpush⟩ := exists_expand_mixedCall
  exact ⟨stmts, next, h, read_unusualDraft.1, read_unusualDraft.2, hpush, rfl, by decide⟩

end Assembly

end WordMachine
