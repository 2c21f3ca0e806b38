import WordMachine.Proofs.Brackets
import WordMachine.Proofs.Fidelity

/-!
# Blocks

A brace on a line of its own is a mark, and every mark is a label. What is given out for the marks
of a source is known from `Issued`, as long as nothing but braces touches the open blocks. That is
shown here layer by layer, from a row of tokens to all lines of a text, refused lines included: a
line may open a block and be refused afterwards.

From there on everything is about statements alone. `Statement.Innermost` says which block is open
behind statements, and it only counts brackets. The labels that `loop` and `break` come to are those
of that block, wherever it was opened and however many blocks have come and gone since.

## Main results

* `Context.exists_issued_behind`: the labels that a text gives out
* `Context.text_ne_of_mem_names`: no label of a text is written like a mark of it
* `Program.Realizes.loopsTo`, `Program.Realizes.breaksTo`: what the two words refer to
* `Context.expand_end_of_nil`, `Context.expand_reference_of_nil`: what is refused where no block is
  open
* `blocks_nest`: blocks in any source
-/

namespace WordMachine

namespace Assembly

/-! ### Marks among statements -/

namespace Statement

/-- The mark that a statement is. -/
def mark? : Statement → Option Label
  | label name => if name.isMark then some name else none
  | _ => none

/-- The marks among statements, in order. -/
def marks (ss : List Statement) : List Label := ss.filterMap mark?

variable {ss : List Statement} {l : Label}

@[simp] theorem marks_append (ss ts : List Statement) : marks (ss ++ ts) = marks ss ++ marks ts :=
  List.filterMap_append

theorem mark?_eq_some_iff {s : Statement} : s.mark? = some l ↔ s = label l ∧ l.isMark = true := by
  cases s with
  | label name =>
    rw [mark?]
    grind
  | _ => simp [mark?]

theorem marks_label_cons (hl : l.isMark = true) (ss : List Statement) :
    marks (label l :: ss) = l :: marks ss :=
  List.filterMap_cons_some (mark?_eq_some_iff.mpr ⟨rfl, hl⟩)

theorem marks_eq_filter (ss : List Statement) : marks ss = (names ss).filter Label.isMark := by
  induction ss with
  | nil => rfl
  | cons s ss ih =>
    rcases s with name | items | op
    · rw [marks, List.filterMap_cons, names_label_cons, List.filter_cons, ← ih, mark?, marks]
      cases name.isMark <;> rfl
    · exact ih
    · exact ih

/-- A place among the marks is a place among the statements. -/
theorem exists_of_marks_eq {front back : List Label} (h : marks ss = front ++ l :: back) :
    ∃ before behind, ss = before ++ label l :: behind ∧ marks before = front ∧
      marks behind = back := by
  obtain ⟨before, rest, rfl, rfl, hrest⟩ := List.filterMap_eq_append_iff.mp h
  obtain ⟨skipped, s, behind, rfl, hskipped, hs, rfl⟩ := List.filterMap_eq_cons_iff.mp hrest
  obtain ⟨rfl, -⟩ := mark?_eq_some_iff.mp hs
  refine ⟨before ++ skipped, behind, by rw [List.append_assoc], ?_, rfl⟩
  have hnone : marks skipped = [] := List.filterMap_eq_nil_iff.mpr hskipped
  rw [marks_append, hnone, List.append_nil, marks]

/-- The innermost block that is open behind statements has the given number, and its start stands
behind the statements `outer`. -/
def Innermost (ss outer : List Statement) (i : Nat) : Prop :=
  ∃ inner, ss = outer ++ label (.blockStart i) :: inner ∧ Balanced (marks inner)

end Statement

/-! ### What lines give out -/

open Statement (marks)

/-- A row gives out the mark that it is read as. -/
theorem Issued.reads {ls : List Label} {scopes next : Scopes} {row : List Token}
    {stmt : Option Statement} (h : Issued ls scopes) (hrow : LineReads scopes row stmt next) :
    Issued (ls ++ marks stmt.toList) next := by
  cases hrow with
  | start row => exact h.start
  | finish row hpop =>
    obtain ⟨i, rfl, -⟩ := h.exists_of_pop? hpop
    exact h.finish hpop
  | label row hname =>
    obtain ⟨rfl, -⟩ := Label.read?_eq_ok_iff.mp hname
    exact (List.append_nil ls).symm ▸ h
  | _ => exact (List.append_nil ls).symm ▸ h

namespace Context

variable {ctx : Context} {line : Nat}

/-- Part of a source gives out the marks that it comes to. Even if it is refused, it may have given
out some. -/
def GivesOut (ctx : Context) (ended : Checked (List (Located Statement)) × Context) : Prop :=
  ∀ ls, Issued ls ctx.scopes → ∃ more, Issued (ls ++ more) ended.2.scopes ∧
    ∀ stmts, ended.1 = .ok stmts → more = marks (stmts.map (·.val))

theorem givesOut_error (ctx : Context) (e : Located LineError) : ctx.GivesOut (.error e, ctx) :=
  fun ls h => ⟨[], (List.append_nil ls).symm ▸ h, by simp⟩

theorem givesOut_statements (ctx : Context) (rs : List (List Token)) :
    ctx.GivesOut (ctx.statements rs) := by
  induction rs generalizing ctx with
  | nil =>
    intro ls h
    refine ⟨[], (List.append_nil ls).symm ▸ h, ?_⟩
    rintro stmts ⟨⟩
    rfl
  | cons row rest ih =>
    rcases hrow : ctx.statement row with ⟨e | stmt, mid⟩
    · obtain rfl := eq_of_statement_error hrow
      rw [statements, hrow]
      exact mid.givesOut_error e
    · intro ls h
      have hreads := h.reads (readLine_reads (readLine_of_statement hrow))
      obtain ⟨more, hmore, hmarks⟩ := ih mid _ hreads
      refine ⟨marks (stmt.map (·.val)).toList ++ more, ?_, ?_⟩
      · rw [snd_statements_cons hrow, ← List.append_assoc]
        exact hmore
      · intro stmts hstmts
        obtain ⟨first, behind, others, hfirst, hothers, rfl⟩ :=
          statements_cons_eq_ok_iff.mp (Prod.ext hstmts rfl)
        obtain ⟨hval, rfl⟩ := Prod.mk.inj (hrow.symm.trans hfirst)
        obtain rfl := Except.ok.inj hval
        rw [hmarks others (congrArg Prod.fst hothers), List.map_append, Statement.marks_append]
        cases stmt <;> rfl

theorem GivesOut.refuse {ended : Checked (List (Located Statement)) × Context}
    (h : ctx.GivesOut ended) (e : Located LineError) : ctx.GivesOut (.error e, ended.2) := by
  intro ls hls
  obtain ⟨more, hmore, -⟩ := h ls hls
  exact ⟨more, hmore, by simp⟩

/-- **A line gives out the marks that it comes to**, whatever its form. -/
theorem givesOut_expand (ctx : Context) (tokens : List Token) :
    ctx.GivesOut (ctx.expand tokens) := by
  have hsettles := ctx.settles_expand tokens
  generalize ctx.rows tokens = rows, ctx.expand tokens = ended at hsettles
  cases hsettles with
  | unread e => exact ctx.givesOut_error e
  | @refused rs e mid hrows => exact hrows ▸ ctx.givesOut_statements rs
  | @late rs stmts mid e hrows =>
    have hgives := ctx.givesOut_statements rs
    rw [hrows] at hgives
    exact hgives.refuse e
  | @accepted rs stmts mid aliases hrows =>
    have hgives := ctx.givesOut_statements rs
    rw [hrows] at hgives
    exact hgives

theorem givesOut_expandText (ctx : Context) (line : Nat) (text : List Char) :
    ctx.GivesOut (ctx.expandText line text) := by
  rw [expandText]
  rcases Token.scan line text with e | tokens
  · exact ctx.givesOut_error e
  · exact ctx.givesOut_expand tokens

/-- **What a text gives out.** The marks that it comes to are among the labels, and if none of its
lines is refused, they are all there are. -/
theorem exists_issued_behind {ls : List Label} (h : Issued ls ctx.scopes) (line : Nat)
    (texts : List (List Char)) :
    ∃ more, Issued (ls ++ more) (ctx.behind line texts).scopes ∧
      (marks (Statement.ofReadings (ctx.readings line texts))).Sublist more ∧
      ((ctx.readings line texts).filterMap (·.failure?) = [] →
        more = marks (Statement.ofReadings (ctx.readings line texts))) := by
  induction texts generalizing ctx line ls with
  | nil => exact ⟨[], (List.append_nil ls).symm ▸ h, List.Sublist.refl _, fun _ => rfl⟩
  | cons text rest ih =>
    obtain ⟨first, hfirst, hmarks⟩ := ctx.givesOut_expandText line text ls h
    obtain ⟨others, hothers, hsublist, heq⟩ := ih hfirst (line + 1)
    refine ⟨first ++ others, by rw [← List.append_assoc]; exact hothers, ?_⟩
    rw [readings, Statement.ofReadings_cons, Statement.marks_append, List.filterMap_cons]
    rcases hanswer : (ctx.expandText line text).1 with e | stmts
    · refine ⟨(List.nil_sublist first).append hsublist, ?_⟩
      intro hnone
      cases hnone
    · rw [hmarks stmts hanswer]
      exact ⟨(List.Sublist.refl _).append hsublist, fun hnone => by rw [heq hnone]; rfl⟩

end Context

/-! ### Labels told apart -/

open Statement (names sizes Innermost)

/-- A label that was read is told from all others by its written form. -/
theorem Statement.IsRead.isProper {l : Label} (h : (Statement.label l).IsRead) :
    l.isProper = true := by
  obtain ⟨scopes, row, next, h⟩ := h
  cases readLine_reads h with
  | start => rfl
  | finish row hpop =>
    obtain ⟨i, rfl⟩ := Scopes.exists_blockEnd hpop
    rfl
  | label row hname =>
    obtain ⟨rfl, -, hreserved, -⟩ := Label.read?_eq_ok_iff.mp hname
    rw [Label.isProper, hreserved]
    rfl

/-- **No label of a text is written like a mark of it**, but the mark itself. -/
theorem Context.text_ne_of_mem_names (line : Nat) (texts : List (List Char))
    {front back : List Label} {l other : Label}
    (hsplit : names (Statement.ofReadings (Context.readings {} line texts)) = front ++ l :: back)
    (hl : l.isMark = true) (hother : other ∈ front ++ back) : other.text ≠ l.text := by
  obtain ⟨more, hissued, hsublist, -⟩ := @Context.exists_issued_behind {} [] .init line texts
  have hnodup := hissued.nodup.sublist hsublist
  rw [Statement.marks_eq_filter, hsplit, List.filter_append, List.filter_cons_of_pos hl,
    List.nodup_middle, List.nodup_cons, ← List.filter_append] at hnodup
  have hproper : ∀ name ∈ front ++ l :: back, name.isProper = true := by
    intro name hname
    rw [← hsplit, Statement.mem_names_iff] at hname
    exact (Context.isRead_of_mem_readings hname).isProper
  intro htext
  obtain rfl := Label.text_injective (hproper other (by grind)) (hproper l (by simp)) htext
  exact hnodup.1 (List.mem_filter.mpr ⟨hother, hl⟩)

/-- **A mark is never defined again.** What is, has a name that the user gave it. -/
theorem Definitions.isReserved_of_mem_failures {source : List Char} {f : Failure}
    (h : f ∈ (Definitions.ofUnits (Placement.ofSource source).units.reverse).failures) :
    ∃ t, f.error.val = .duplicateLabel t ∧ Label.isReserved t = false := by
  obtain ⟨us, ⟨rest, hus⟩, hunits⟩ := Placement.exists_units_prefix source
  rw [hunits, List.reverse_reverse, failures_ofUnits, List.mem_reverse] at h
  obtain ⟨front, u, back, name, rfl, hu, hname, rfl⟩ := Placed.exists_of_mem_repeats h
  have hstmts := Placed.map_stmt_of_place (Placed.place_ofSource source)
  rw [← hus, List.append_assoc, List.cons_append, List.map_append, List.map_cons, hu] at hstmts
  have hnames := congrArg names hstmts
  rw [Statement.names_append, Statement.names_label_cons] at hnames
  rcases hname with hname | hname
  · cases hname
  have hmark : name.isMark = false := by
    rw [← Bool.not_eq_true]
    intro hmark
    exact Context.text_ne_of_mem_names 1 (Text.lines source) hnames.symm hmark
      (List.mem_append_left _ hname) rfl
  have hmem : .label name ∈ Statement.ofSource source := by
    rw [← hstmts]
    simp
  have hproper := (Context.isRead_of_mem_readings hmem).isProper
  cases name with
  | named t =>
    refine ⟨t, rfl, ?_⟩
    rw [Label.isProper] at hproper
    simpa using hproper
  | _ => cases hmark

/-! ### Blocks of a program -/

section Pairs

variable {ss before behind : List Statement} {scopes : Scopes} {i j : Nat}

/-- The block that is kept as the innermost one is the innermost that is open. -/
theorem Issued.exists_innermost {is : List Nat} (h : Issued (marks ss) scopes)
    (hids : scopes.ids = i :: is) : ∃ outer, Innermost ss outer i := by
  have hopened := h.opened
  rw [hids] at hopened
  obtain ⟨_, _, hmarks, hinner, -⟩ := hopened
  obtain ⟨outer, inner, rfl, -, rfl⟩ := Statement.exists_of_marks_eq hmarks
  exact ⟨outer, inner, rfl, hinner⟩

/-- An end has the number of the innermost block that is open before it. -/
theorem Issued.exists_innermost_of_end
    (h : Issued (marks (before ++ .label (.blockEnd j) :: behind)) scopes) :
    ∃ outer, Innermost before outer j := by
  rw [Statement.marks_append, Statement.marks_label_cons rfl] at h
  obtain ⟨_, _, hmarks, hinner⟩ := h.exists_start rfl
  obtain ⟨outer, inner, rfl, -, rfl⟩ := Statement.exists_of_marks_eq hmarks
  exact ⟨outer, inner, rfl, hinner⟩

/-- A start and an end behind it have the same number exactly if they are paired. -/
theorem Issued.eq_iff_balanced_marks {outer inner : List Statement}
    (h : Issued (marks (outer ++ .label (.blockStart i) :: inner ++ .label (.blockEnd j) :: behind))
      scopes) : i = j ↔ Balanced (marks inner) := by
  rw [Statement.marks_append, Statement.marks_append, Statement.marks_label_cons rfl,
    Statement.marks_label_cons rfl] at h
  exact h.eq_iff_balanced rfl

/-- A label is defined in one place. -/
theorem Statement.eq_of_split {name : Label} {before' behind' : List Statement}
    (hnodup : (names ss).Nodup) (h : ss = before ++ label name :: behind)
    (h' : ss = before' ++ label name :: behind') : before = before' := by
  rw [h, names_append, names_label_cons, List.nodup_middle, List.nodup_cons, List.mem_append,
    not_or, mem_names_iff, mem_names_iff] at hnodup
  obtain ⟨⟨hbefore, hbehind⟩, -⟩ := hnodup
  exact ((List.append_cons_inj_of_notMem hbefore hbehind).mp (h.symm.trans h')).1

end Pairs

/-! ### References to blocks -/

/-- The mark that a word refers to, by the number of the block. -/
def blockMark? (t : List Char) : Option (Nat → Label) :=
  if t = "loop".toList then some .blockStart
  else if t = "break".toList then some .blockEnd
  else none

/-- Whether a token of an operation refers to a block. -/
def RefersToBlock (t : List Char) : Prop :=
  ∃ k, immediate? t = some ("loop".toList, k) ∨ immediate? t = some ("break".toList, k)

section References

variable {cls : Class} {scopes : Scopes} {t value : List Char} {mark : Nat → Label} {k : RefKind}
  {first tk : Token} {row : List Token} {op : Operation}

/-- Such a word is a mark of the block that is kept as the innermost one. -/
theorem Imm.read?_of_blockMark (h : blockMark? value = some mark) :
    Imm.read? value k scopes = match scopes.ids with
      | [] => .error .unbalancedBlock
      | i :: _ => .ok (.ref ⟨mark i, k⟩) := by
  have hloop : Numeral.read? "loop".toList = none := by decide
  have hbreak : Numeral.read? "break".toList = none := by decide
  rw [blockMark?] at h
  split at h
  · next hvalue =>
    subst hvalue
    cases h
    rw [read?, hloop, Scopes.ids, Scopes.keeper_start?, Scopes.start?]
    rcases scopes.pending with _ | ⟨scope, rest⟩ <;> rfl
  · split at h
    · next hvalue =>
      subst hvalue
      cases h
      rw [read?, hbreak, Scopes.ids, Scopes.keeper_end?, Scopes.end?]
      rcases scopes.pending with _ | ⟨scope, rest⟩ <;> rfl
    · cases h

theorem Part.read?_of_blockMark (ht : immediate? t = some (value, k))
    (h : blockMark? value = some mark) :
    Part.read? cls scopes t = match scopes.ids with
      | [] => .error .unbalancedBlock
      | i :: _ => .ok (.imm (.ref ⟨mark i, k⟩)) := by
  rw [read?_of_immediate ht, Imm.read?_of_blockMark h]
  rcases scopes.ids with _ | ⟨i, is⟩ <;> rfl

theorem Part.read?_of_refersToBlock (h : RefersToBlock t) (hids : scopes.ids = []) :
    Part.read? cls scopes t = .error .unbalancedBlock := by
  obtain ⟨k, ht | ht⟩ := h <;> rw [read?_of_blockMark ht rfl, hids]

/-- An operation that was read with such a word has the mark as an immediate. -/
theorem exists_of_blockMark (hop : readOperation cls scopes first row = .ok op) (htk : tk ∈ row)
    (ht : immediate? tk.val = some (value, k)) (h : blockMark? value = some mark) :
    ∃ i is, scopes.ids = i :: is ∧ op.HasImm (.ref ⟨mark i, k⟩) := by
  have hpart := @Part.read?_of_blockMark cls scopes _ _ _ _ ht h
  obtain ⟨d, hd, -⟩ := readOperation_eq_ok_iff.mp hop
  obtain ⟨part, hsays⟩ := Draft.exists_part_of_read hd htk
  rcases hids : scopes.ids with _ | ⟨i, is⟩ <;> rw [hids] at hpart
  · cases hsays.symm.trans hpart
  · exact ⟨i, is, rfl, hasImm_of_readOperation hop htk hpart⟩

end References

namespace Program

/-- An operation behind the statements `placed` has the start of the innermost open block as one of
its immediates, and the program knows the address of that start. -/
def LoopsTo (p : Program) (placed : List Statement) (op : Operation) (k : RefKind) : Prop :=
  ∃ outer i, Innermost placed outer i ∧ op.HasImm (.ref ⟨.blockStart i, k⟩) ∧
    p.labels[Label.blockStart i]? = some (UInt16.ofNat (sizes outer))

/-- An operation behind the statements `placed` has the end of the innermost open block as one of
its immediates. The end stands among the statements where that block is the innermost open one
again, and the program knows the address of that end. -/
def BreaksTo (p : Program) (ss placed : List Statement) (op : Operation) (k : RefKind) : Prop :=
  ∃ outer i before behind, Innermost placed outer i ∧ op.HasImm (.ref ⟨.blockEnd i, k⟩) ∧
    ss = before ++ .label (.blockEnd i) :: behind ∧ Innermost before outer i ∧
    p.labels[Label.blockEnd i]? = some (UInt16.ofNat (sizes before))

namespace Realizes

variable {p : Program} {ss placed rest : List Statement} {op : Operation} {scopes : Scopes}

/-- An address is known to every immediate of a program. -/
theorem exists_label_of_hasImm (h : p.Realizes ss) (hop : .op op ∈ ss) {r : LabelRef}
    (hr : op.HasImm (.ref r)) : ∃ target, p.labels[r.label]? = some target := by
  obtain ⟨before, behind, rfl⟩ := List.append_of_mem hop
  obtain ⟨w, -, hw⟩ := h.standsAt
  obtain ⟨i, hi, -⟩ := map_eq_ok_iff.mp hw
  obtain ⟨src, dst, hsrc, -, hdst, -, -⟩ := Operation.toInst_eq_ok_iff.mp hi
  rcases hr with hr | hr
  · rw [hr] at hsrc
    obtain ⟨target, htarget, -⟩ := hsrc
    exact ⟨target, htarget⟩
  · rw [hr] at hdst
    obtain ⟨target, htarget, -⟩ := hdst
    exact ⟨target, htarget⟩

/-- `loop` refers to the start of the innermost open block. -/
theorem loopsTo (h : p.Realizes (placed ++ rest)) (hissued : Issued (marks placed) scopes)
    {cls : Class} {first tk : Token} {row : List Token}
    (hop : readOperation cls scopes first row = .ok op) (htk : tk ∈ row) {k : RefKind}
    (hloop : immediate? tk.val = some ("loop".toList, k)) : p.LoopsTo placed op k := by
  obtain ⟨i, is, hids, himm⟩ := exists_of_blockMark hop htk hloop rfl
  obtain ⟨outer, houter⟩ := hissued.exists_innermost hids
  refine ⟨outer, i, houter, himm, ?_⟩
  obtain ⟨inner, rfl, -⟩ := houter
  exact h.getElem?_labels.mpr ⟨outer, inner ++ rest, by simp, rfl⟩

/-- `break` refers to its end. -/
theorem breaksTo (h : p.Realizes (placed ++ rest)) (hissued : Issued (marks placed) scopes)
    {scopes' : Scopes} (hissued' : Issued (marks (placed ++ rest)) scopes') {cls : Class}
    {first tk : Token} {row : List Token} (hop : readOperation cls scopes first row = .ok op)
    (hmem : .op op ∈ placed ++ rest) (htk : tk ∈ row) {k : RefKind}
    (hbreak : immediate? tk.val = some ("break".toList, k)) :
    p.BreaksTo (placed ++ rest) placed op k := by
  obtain ⟨i, is, hids, himm⟩ := exists_of_blockMark hop htk hbreak rfl
  obtain ⟨outer, houter⟩ := hissued.exists_innermost hids
  obtain ⟨target, htarget⟩ := h.exists_label_of_hasImm hmem himm
  obtain ⟨before, behind, hsplit, rfl⟩ := h.getElem?_labels.mp htarget
  rw [hsplit] at hissued'
  obtain ⟨outer', houter'⟩ := hissued'.exists_innermost_of_end
  obtain rfl : outer = outer' := by
    -- Both are what stands before the one start of the number.
    obtain ⟨inner, hplaced, -⟩ := houter
    obtain ⟨inner', hbefore, -⟩ := houter'
    have hstart : placed ++ rest = outer ++ .label (.blockStart i) :: (inner ++ rest) := by
      rw [hplaced]
      simp
    have hstart' : placed ++ rest = outer' ++ .label (.blockStart i) ::
        (inner' ++ .label (.blockEnd i) :: behind) := by
      rw [hsplit, hbefore]
      simp
    exact Statement.eq_of_split h.nodup_names hstart hstart'
  exact ⟨outer, i, before, behind, houter, himm, hsplit, houter', htarget⟩

end Realizes

end Program

/-! ### Where no block is open -/

namespace Context

variable {ctx : Context} {tokens rest : List Token} {rs front back : List (List Token)}
  {first : Token}

theorem ids_eq_nil_iff : ctx.scopes.ids = [] ↔ ctx.scopes.pending = [] := List.map_eq_nil_iff

/-- An end is refused where no block is open. It is only asked before whether it stands alone. -/
theorem expand_end_of_nil (hpending : ctx.scopes.pending = []) (hrows : ctx.rows tokens = .ok rs)
    (hrow : first :: rest ∈ rs) (hfirst : first.val = ['\x7d']) :
    (ctx.expand tokens).1 = (expectNone .crowdedBlock rest).bind fun _ =>
      .error (first.withVal .unbalancedBlock) := by
  have hcode : ¬ IsCode ((first :: rest).map (·.val)) := by
    rintro ⟨cls, words, hwords⟩
    have hmnemonic : first.val = mnemonic cls := (List.cons.inj hwords).1
    rw [hfirst] at hmnemonic
    cases cls <;> exact absurd hmnemonic (by decide)
  have hpop : ctx.scopes.pop? blockName = .error .unbalancedBlock := by
    rw [Scopes.pop?, hpending]
    rfl
  have hread : readLine ctx.scopes (first :: rest) = (expectNone .crowdedBlock rest).bind fun _ =>
      .error (first.withVal .unbalancedBlock) := by
    rw [readLine, hfirst, if_neg (by decide), if_pos rfl, Scopes.keeper_pop?, hpop]
    rfl
  obtain rfl := eq_singleton_of_rows hrows hrow hcode
  have honly : ctx.rows tokens = .ok ([] ++ (first :: rest) :: []) := hrows
  rcases hnone : expectNone .crowdedBlock rest with e | u <;> rw [hnone] at hread
  · exact answer_of_refused honly hread
  · exact answer_of_refused honly hread

/-- A reference to a block is refused where no block is open. A part of the line before it may be to
blame instead. -/
theorem expand_reference_of_nil (hpending : ctx.scopes.pending = []) {cls : Class} {tk : Token}
    {before after : List Token}
    (hrows : ctx.rows tokens = .ok (front ++ (first :: (before ++ tk :: after)) :: back))
    (hfirst : first.val = mnemonic cls) (htk : RefersToBlock tk.val) :
    (ctx.expand tokens).1 = (ctx.statements front).1.bind fun _ =>
      (Draft.read cls ctx.scopes {} before).bind fun _ =>
        .error (tk.withVal .unbalancedBlock) := by
  have hpart := @Part.read?_of_refersToBlock cls _ _ htk (ids_eq_nil_iff.mpr hpending)
  have hread := @readLine_mnemonic cls ctx.scopes first (before ++ tk :: after) hfirst
  rw [readOperation_of_refused hpart] at hread
  rcases hbefore : Draft.read cls ctx.scopes {} before with e | d <;> rw [hbefore] at hread
  · exact answer_of_refused hrows hread
  · exact answer_of_refused hrows hread

/-- Behind lines of which none is refused, no block is open exactly if the marks are balanced. -/
theorem pending_eq_nil_iff {line : Nat} {texts : List (List Char)}
    (h : (Context.readings {} line texts).filterMap (·.failure?) = []) :
    (Context.behind {} line texts).scopes.pending = [] ↔
      Balanced (marks (Statement.ofReadings (Context.readings {} line texts))) := by
  obtain ⟨more, hissued, -, heq⟩ := @exists_issued_behind {} [] .init line texts
  rw [List.nil_append, heq h] at hissued
  rw [← ids_eq_nil_iff]
  exact hissued.opened.eq_nil_iff

end Context

/-! ### Sources -/

/-- In every operation on a line of a program, `loop` and `break` refer to the innermost block that
is open before the line. The line is read in a context, behind the statements `placed`. -/
def Program.RefersInward (p : Program) (ss placed : List Statement) (ctx : Context)
    (tokens : List Token) (stmts : List (Located Statement)) : Prop :=
  ∀ rs cls first rest, ctx.rows tokens = .ok rs → first :: rest ∈ rs → first.val = mnemonic cls →
    ∃ op, .op op ∈ stmts.map (·.val) ∧ readOperation cls ctx.scopes first rest = .ok op ∧
      ∀ tk ∈ rest, ∀ k,
        (immediate? tk.val = some ("loop".toList, k) → p.LoopsTo placed op k) ∧
        (immediate? tk.val = some ("break".toList, k) → p.BreaksTo ss placed op k)

/-- The marks of an assembled source were given out in order. -/
theorem Context.issued_behind_of_expandLines {texts : List (List Char)}
    {groups : List (List (Located Statement))}
    (h : Context.expandLines {} 1 texts = .ok groups) :
    Issued (marks (Statement.ofLines groups)) (Context.behind {} 1 texts).scopes := by
  obtain ⟨more, hissued, -, heq⟩ := @Context.exists_issued_behind {} [] .init 1 texts
  rw [List.nil_append, heq (Context.failures_readings h),
    Context.ofReadings_of_expandLines h] at hissued
  exact hissued

theorem Program.Realizes.refersInward {p : Program} {before behind : List (List Char)}
    {text : List Char} {groups : List (List (Located Statement))}
    (hgroups : Context.expandLines {} 1 (before ++ text :: behind) = .ok groups)
    (hp : p.Realizes (Statement.ofLines groups)) :
    ∃ front stmts, Context.expandLines {} 1 before = .ok front ∧
      ((Context.behind {} 1 before).expandText (1 + before.length) text).1 = .ok stmts ∧
      ∀ tokens, Token.scan (1 + before.length) text = .ok tokens →
        p.RefersInward (Statement.ofLines groups) (Statement.ofLines front)
          (Context.behind {} 1 before) tokens stmts := by
  obtain ⟨front, stmts, back, rfl, hfront, hanswer⟩ := Context.exists_of_expandLines hgroups
  refine ⟨front, stmts, hfront, hanswer, ?_⟩
  intro tokens hscan rs cls first rest hrows hrow hfirst
  rw [Context.expandText, hscan] at hanswer
  obtain ⟨op, hmem, hop⟩ := Context.exists_op_of_row hrows (Prod.ext hanswer rfl) hrow hfirst
  refine ⟨op, hmem, hop, ?_⟩
  have hissued := Context.issued_behind_of_expandLines hfront
  have hall := Context.issued_behind_of_expandLines hgroups
  have hsplit : Statement.ofLines (front ++ stmts :: back)
      = Statement.ofLines front ++ Statement.ofLines (stmts :: back) := by
    simp [Statement.ofLines]
  rw [hsplit] at hp hall ⊢
  have hplaced : .op op ∈ Statement.ofLines front ++ Statement.ofLines (stmts :: back) := by
    rw [Statement.ofLines_cons]
    exact List.mem_append_right _ (List.mem_append_left _ hmem)
  intro tk htk k
  exact ⟨hp.loopsTo hissued hop htk, hp.breaksTo hissued hall hop hplaced htk⟩

/-- **Blocks nest.** In any source the marks are told from all other labels by how they are written,
so none of them is ever defined again. In a source that is assembled every end has the number of the
innermost block that is open before it, an end and a start have the same number exactly if they are
paired, and in operations `loop` and `break` stand for the two ends of the innermost block that is
open before the line. Where no block is open, an end and a reference to a block are refused, and no
block is open exactly where the marks so far are balanced. A block that nothing closes is no
failure. -/
theorem blocks_nest :
    (∀ source,
      (∀ front l back, names (Statement.ofSource source) = front ++ l :: back →
        l.isMark = true → ∀ other ∈ front ++ back, other.text ≠ l.text) ∧
      ∀ f ∈ (Definitions.ofUnits (Placement.ofSource source).units.reverse).failures,
        ∃ t, f.error.val = .duplicateLabel t ∧ Label.isReserved t = false) ∧
    (∀ source p, assemble? source = .ok p →
      ∃ groups, Context.expandLines {} 1 (Text.lines source) = .ok groups ∧
        (∀ before j behind, Statement.ofLines groups = before ++ .label (.blockEnd j) :: behind →
          ∃ outer, Innermost before outer j) ∧
        (∀ outer i inner j behind, Statement.ofLines groups =
            outer ++ .label (.blockStart i) :: inner ++ .label (.blockEnd j) :: behind →
          (i = j ↔ Balanced (marks inner))) ∧
        ∀ before text behind, Text.lines source = before ++ text :: behind →
          ∃ front stmts, Context.expandLines {} 1 before = .ok front ∧
            ((Context.behind {} 1 before).expandText (1 + before.length) text).1 = .ok stmts ∧
            ∀ tokens, Token.scan (1 + before.length) text = .ok tokens →
              p.RefersInward (Statement.ofLines groups) (Statement.ofLines front)
                (Context.behind {} 1 before) tokens stmts) ∧
    (∀ (ctx : Context) tokens, ctx.scopes.pending = [] →
      (∀ rs first rest, ctx.rows tokens = .ok rs → first :: rest ∈ rs → first.val = ['\x7d'] →
        (ctx.expand tokens).1 = (expectNone .crowdedBlock rest).bind fun _ =>
          .error (first.withVal .unbalancedBlock)) ∧
      (∀ front first before tk after back cls,
        ctx.rows tokens = .ok (front ++ (first :: (before ++ tk :: after)) :: back) →
        first.val = mnemonic cls → RefersToBlock tk.val →
        (ctx.expand tokens).1 = (ctx.statements front).1.bind fun _ =>
          (Draft.read cls ctx.scopes {} before).bind fun _ =>
            .error (tk.withVal .unbalancedBlock))) ∧
    (∀ line texts, (Context.readings {} line texts).filterMap (·.failure?) = [] →
      ((Context.behind {} line texts).scopes.pending = [] ↔
        Balanced (marks (Statement.ofReadings (Context.readings {} line texts))))) := by
  refine ⟨?_, ?_, ?_, fun line texts => Context.pending_eq_nil_iff⟩
  · intro source
    refine ⟨?_, fun f => Definitions.isReserved_of_mem_failures⟩
    intro front l back hsplit hl other hother
    exact Context.text_ne_of_mem_names 1 _ hsplit hl hother
  · intro source p h
    obtain ⟨groups, hgroups, hp, -⟩ := assemble?_eq_ok_iff.mp h
    have hissued := Context.issued_behind_of_expandLines hgroups
    refine ⟨groups, hgroups, ?_, ?_, ?_⟩
    · intro before j behind hsplit
      exact (hsplit ▸ hissued).exists_innermost_of_end
    · intro outer i inner j behind hsplit
      exact (hsplit ▸ hissued).eq_iff_balanced_marks
    · intro before text behind hsplit
      exact hp.refersInward (hsplit ▸ hgroups)
  · intro ctx tokens hpending
    refine ⟨fun rs first rest => Context.expand_end_of_nil hpending, ?_⟩
    intro front first before tk after back cls
    exact Context.expand_reference_of_nil hpending

/-- The tokens of a jump, on a line of the given number. -/
def jumpTokens (line : Nat) (name : List Char) : List Token :=
  [⟨⟨line, 1⟩, "copy".toList⟩, ⟨⟨line, 6⟩, "0.reg".toList⟩,
    ⟨⟨line, 12⟩, name ++ ".disp".toList⟩, ⟨⟨line, name.length + 18⟩, "0.reg".toList⟩]

/-- Two blocks, one inside the other. The inner one is repeated, and from behind it the outer one is
left. On their own, an end and a jump to a start are refused. -/
theorem blocks_nest_two :
    ∃ p, assemble?
        "\x7b\n\x7b\ncopy 0.reg loop.disp 0.reg\n\x7d\ncopy 0.reg break.disp 0.reg\n\x7d".toList =
          .ok p ∧ p.words = [0x6000, 0x6001] ∧
      (∃ op, p.LoopsTo [.label (.blockStart 1), .label (.blockStart 2)] op .displacement) ∧
      (∃ ss placed op, p.BreaksTo ss placed op .displacement) ∧
      (∀ other ∈ [Label.blockEnd 1], other.text ≠ (Label.blockStart 1).text) ∧
      (Context.expand {} [⟨⟨1, 1⟩, ['\x7d']⟩]).1 = .error ⟨⟨1, 1⟩, .unbalancedBlock⟩ ∧
      (Context.expand {} (jumpTokens 1 "loop".toList)).1 = .error ⟨⟨1, 12⟩, .unbalancedBlock⟩ ∧
      Balanced (marks (Statement.ofReadings
        (Context.readings {} 1 ["\x7b".toList, "\x7d".toList]))) := by
  obtain ⟨hmarks, hassembled, hrefused, hpending⟩ := blocks_nest
  obtain ⟨p, hp, hwords⟩ := @exists_program_of_words
    "\x7b\n\x7b\ncopy 0.reg loop.disp 0.reg\n\x7d\ncopy 0.reg break.disp 0.reg\n\x7d".toList
    [0x6000, 0x6001] (by decide +kernel)
  obtain ⟨groups, hgroups, -, -, hlines⟩ := hassembled _ p hp
  refine ⟨p, hp, hwords, ?_, ?_, ?_, ?_, ?_, ?_⟩
  · obtain ⟨front, stmts, hfront, -, hrefers⟩ := hlines ["\x7b".toList, "\x7b".toList]
      "copy 0.reg loop.disp 0.reg".toList
      ["\x7d".toList, "copy 0.reg break.disp 0.reg".toList, "\x7d".toList] (by decide +kernel)
    have hplaced : (Context.expandLines {} 1 ["\x7b".toList, "\x7b".toList]).toOption.map
        Statement.ofLines = some [.label (.blockStart 1), .label (.blockStart 2)] := by
      decide +kernel
    rw [hfront] at hplaced
    obtain ⟨op, -, -, hop⟩ := hrefers (jumpTokens 3 "loop".toList) rfl
      [jumpTokens 3 "loop".toList] .copy _ _ rfl (List.mem_singleton_self _) rfl
    rw [← Option.some.inj hplaced]
    exact ⟨op, (hop ⟨⟨3, 12⟩, "loop.disp".toList⟩ (by decide) .displacement).1 rfl⟩
  · obtain ⟨front, stmts, -, -, hrefers⟩ := hlines ["\x7b".toList, "\x7b".toList,
      "copy 0.reg loop.disp 0.reg".toList, "\x7d".toList] "copy 0.reg break.disp 0.reg".toList
      ["\x7d".toList] (by decide +kernel)
    obtain ⟨op, -, -, hop⟩ := hrefers (jumpTokens 5 "break".toList) rfl
      [jumpTokens 5 "break".toList] .copy _ _ (Context.rows_of_plain _ (by decide) (by decide))
      (List.mem_singleton_self _) rfl
    exact ⟨_, _, op, (hop ⟨⟨5, 12⟩, "break.disp".toList⟩ (by decide) .displacement).2 rfl⟩
  · have hnames : names (Statement.ofSource "\x7b\n\x7d".toList)
        = [.blockStart 1, .blockEnd 1] := by
      decide +kernel
    exact (hmarks "\x7b\n\x7d".toList).1 [] (.blockStart 1) [.blockEnd 1] hnames rfl
  · exact (hrefused {} [⟨⟨1, 1⟩, ['\x7d']⟩] rfl).1 [[⟨⟨1, 1⟩, ['\x7d']⟩]] ⟨⟨1, 1⟩, ['\x7d']⟩ [] rfl
      (List.mem_singleton_self _) rfl
  · exact (hrefused {} (jumpTokens 1 "loop".toList) rfl).2 [] ⟨⟨1, 1⟩, "copy".toList⟩
      [⟨⟨1, 6⟩, "0.reg".toList⟩] ⟨⟨1, 12⟩, "loop.disp".toList⟩ [⟨⟨1, 22⟩, "0.reg".toList⟩] [] .copy
      rfl rfl ⟨.displacement, Or.inl rfl⟩
  · exact (hpending 1 ["\x7b".toList, "\x7d".toList] rfl).mp rfl

end Assembly

end WordMachine
