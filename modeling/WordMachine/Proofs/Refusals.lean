import Mathlib.Algebra.Ring.Int.Defs
import WordMachine.Proofs.Drift

/-!
# What refused lines leave behind

A line that is refused is reported, and the lines behind it are read all the same. They are read in
the context that the refused line has left, and one would expect that to be the context from before
it. Most lines do not get as far as to change anything. A row that cannot be read changes nothing, a
declaration is checked before it is made, and so is what is spelled wrong in a call.

There are two exceptions, and `Context.leaves_trace_iff` says that there are no others. An
assignment is read before it is known to be none, so that one of the mark of a block opens or closes
the block (`Context.AssignsMark`). The lines of a call are read one after another, and if one of
them is refused, aliases have followed the lines before it (`Context.StopsMidway`). Each of these
lines moves the stack of the call by a number that can be told from the call alone (`Call.moves`),
so the trace that is left is known as well.

## Main results

* `Context.statements_eq_error_iff`: rows are refused at the first that cannot be read
* `Call.shifts_lines`: how far each line of a call moves its stack
* `Context.snd_statements_of_lines`: the context behind some lines of a call
* `Context.leaves_trace_iff`: the lines that are refused and leave something behind
-/

namespace WordMachine

namespace Assembly

/-! ### Rows up to one that is refused -/

namespace Context

variable {ctx next : Context} {row : List Token} {rows : List (List Token)}
  {stmts : List (Located Statement)} {e : Located LineError}

theorem statement_eq_error_iff :
    ctx.statement row = (.error e, next) ↔ readLine ctx.scopes row = .error e ∧ next = ctx := by
  constructor
  · intro h
    rw [statement] at h
    split at h
    · next hread =>
      obtain ⟨he, rfl⟩ := Prod.mk.inj h
      obtain rfl := Except.error.inj he
      exact ⟨hread, rfl⟩
    · simp at h
  · rintro ⟨hread, rfl⟩
    exact statement_of_error hread

/-- **Rows are refused at the first that cannot be read**, in the context that the rows before it
have left. -/
theorem statements_eq_error_iff :
    ctx.statements rows = (.error e, next) ↔
      ∃ front row back stmts, rows = front ++ row :: back ∧
        ctx.statements front = (.ok stmts, next) ∧ readLine next.scopes row = .error e := by
  constructor
  · intro h
    induction rows generalizing ctx with
    | nil => simp [statements] at h
    | cons row rest ih =>
      rw [statements] at h
      split at h
      · next mid hrow =>
        obtain ⟨he, rfl⟩ := Prod.mk.inj h
        obtain rfl := Except.error.inj he
        obtain ⟨hread, rfl⟩ := statement_eq_error_iff.mp hrow
        exact ⟨[], row, rest, [], rfl, rfl, hread⟩
      · next stmt mid hrow =>
        split at h
        · next last hrest =>
          obtain ⟨he, rfl⟩ := Prod.mk.inj h
          obtain rfl := Except.error.inj he
          obtain ⟨front, refused, back, others, rfl, hfront, hread⟩ := ih hrest
          exact ⟨row :: front, refused, back, stmt.toList ++ others, rfl,
            statements_cons_eq_ok_iff.mpr ⟨stmt, mid, others, hrow, hfront, rfl⟩, hread⟩
        · simp at h
  · rintro ⟨front, row, back, stmts, rfl, hfront, hread⟩
    rw [statements_append, hfront]
    dsimp only
    rw [statements, statement_of_error hread]
    rfl

/-- Aliases follow rows that are shifts by the sum of all shifts, if there are any rows. -/
theorem eq_shift_of_statements {r : Reg} {ms : List Int} {scopes : Scopes}
    (hshifts : List.Forall₂ (Shifts scopes r) rows ms) (hne : rows ≠ [])
    (hcode : ∀ row ∈ rows, IsCode (row.map (·.val))) (hscopes : ctx.scopes = scopes)
    (h : ctx.statements rows = (.ok stmts, next)) :
    next = { ctx with aliases := ctx.aliases.shift r ms.sum } := by
  induction hshifts generalizing ctx stmts with
  | nil => exact absurd rfl hne
  | @cons row m rest ms hrow hrest ih =>
    rw [List.forall_mem_cons] at hcode
    obtain ⟨op, stmt, others, -, -, hread, hothers⟩ := exists_op_of_statements_cons hcode.1 h
    rw [hscopes] at hread
    rw [hrow op _ hread] at hothers
    cases hrest with
    | nil =>
      obtain rfl := (Prod.mk.inj hothers).2
      rw [List.sum_cons, List.sum_nil, Int.add_zero]
    | cons _ _ =>
      rw [@ih ⟨ctx.aliases.shift r m, ctx.scopes⟩ _ (List.cons_ne_nil _ _) hcode.2 hscopes hothers,
        List.sum_cons, AliasTable.shift_shift]
      rfl

end Context

/-! ### The lines of a call -/

namespace Call

/-- How far the lines of a call move its stack, without the jump behind them: the words kept, then a
word for the return address and one for each argument. -/
def moves (c : Call) : List Int :=
  (if c.kept = 0 then [] else [(c.kept : Int)]) ++ 1 :: List.replicate c.args.length 1

theorem shifts_pushLines {scopes : Scopes} {stack : Reg} {tk : Token} {moved : Int}
    {args : List (List Token)} {lines : List (List (List Char))}
    (h : pushLines stack moved args = .ok lines) :
    List.Forall₂ (fun line n => Shifts scopes stack (line.map tk.withVal) n) lines
      (List.replicate args.length 1) := by
  induction args generalizing moved lines with
  | nil =>
    cases h
    exact .nil
  | cons arg rest ih =>
    simp only [pushLines, bind_eq_ok_iff, pure_eq_ok_iff] at h
    obtain ⟨us, -, others, hothers, rfl⟩ := h
    exact .cons (shifts_pushLine us) (ih hothers)

/-- **How far each line of a call moves its stack.** -/
theorem shifts_lines {c : Call} (hkept : c.kept ≤ 0xFFFF) {lines : List (List (List Char))}
    (h : c.lines = .ok lines) (scopes : Scopes) (tk : Token) :
    ∃ front jump, lines = front ++ [jump] ∧
      List.Forall₂ (fun line n => Shifts scopes c.stack (line.map tk.withVal) n) front c.moves := by
  obtain ⟨pushes, hpushes, rfl⟩ := lines_eq_ok_iff.mp h
  refine ⟨(keepLines c.stack c.kept).map (·.words) ++
    pushLine c.stack [Source.pc.text, immText (c.args.length + 2)] :: pushes, _,
    (List.append_assoc _ (_ :: pushes) [_]).symm, ?_⟩
  refine List.rel_append ?_ (.cons (shifts_pushLine _) (shifts_pushLines hpushes))
  have hkeep := fun l hl => @shifts_keepLine scopes c.stack tk c.kept hkept l hl
  rw [keepLines] at hkeep ⊢
  split
  · exact .nil
  · next hpos =>
    rw [if_neg hpos] at hkeep
    exact .cons (hkeep _ (List.mem_singleton_self _)) .nil

/-- The words that a call keeps are counted by a word. -/
theorem kept_le {aliases : AliasTable} {lhs rhs : List Token} {arrow : Token} {c : Call}
    (h : Call.read? aliases lhs arrow rhs = .ok c) : c.kept ≤ 0xFFFF := by
  rcases lhs with _ | ⟨stack, _ | _⟩
  · cases h
  · rw [Call.read?] at h
    obtain ⟨⟨raw, kept⟩, hstack, h⟩ := bind_eq_ok_iff.mp h
    obtain ⟨_, -, h⟩ := bind_eq_ok_iff.mp h
    obtain ⟨_, -, h⟩ := bind_eq_ok_iff.mp h
    obtain ⟨_, -, h⟩ := bind_eq_ok_iff.mp h
    obtain rfl := pure_eq_ok_iff.mp h
    have hread := at?_eq_ok_iff.mp hstack
    rw [readStack?] at hread
    split at hread
    · cases hread
      exact Nat.zero_le _
    · split at hread
      · split at hread
        · cases hread
          dsimp only
          omega
        · cases hread
      · cases hread
  · cases h

end Call

namespace Context

variable {ctx next : Context} {tokens : List Token} {e : Located LineError}

/-- The context behind some lines of a call, without the jump, if none of them is refused. -/
theorem snd_statements_of_lines {c : Call} (hkept : c.kept ≤ 0xFFFF)
    {front back : List (List (List Char))} {line : List (List Char)}
    (h : c.lines = .ok (front ++ line :: back)) (hne : front ≠ []) (tk : Token)
    {stmts : List (Located Statement)}
    (hfront : ctx.statements (front.map fun line => line.map tk.withVal) = (.ok stmts, next)) :
    next = { ctx with aliases := ctx.aliases.shift c.stack (c.moves.take front.length).sum } := by
  obtain ⟨before, jump, hlines, hshifts⟩ := Call.shifts_lines hkept h ctx.scopes tk
  -- The line behind `front` is the jump or stands before it.
  have htake : front = before.take front.length := by
    have hlength := congrArg List.length hlines
    have htake := congrArg (List.take front.length) hlines
    rw [List.length_append, List.length_append, List.length_cons, List.length_singleton] at hlength
    rwa [List.take_left, List.take_append_of_le_length (by omega)] at htake
  have hcode : ∀ row ∈ front.map fun line => line.map tk.withVal, IsCode (row.map (·.val)) := by
    intro row hrow
    refine Call.isCode_of_mem_rows h tk row ?_
    rw [List.map_append]
    exact List.mem_append_left _ hrow
  have hfirst := List.forall₂_take front.length hshifts
  rw [← htake] at hfirst
  exact eq_shift_of_statements (List.forall₂_map_left_iff.mpr hfirst) (by simpa using hne) hcode rfl
    hfront

/-! ### Refused lines -/

/-- A line assigns a row that is read as the definition of a label: it is refused, but the row has
been read. If it is the mark of a block, the block is open or closed behind it. -/
inductive AssignsMark (ctx : Context) : List Token → Located LineError → Context → Prop
  | intro {first mark : Token} {rhs row : List Token} {label : Label} {scopes : Scopes}
    (harrow : splitAt? Call.arrow (first :: mark :: rhs) = none)
    (hfirst : Alias.isName first.val = true)
    (hsplit : splitAt? "as".toList (first :: mark :: rhs) = none)
    (hmark : mark.val = "=".toList) (hrow : ctx.aliases.substitute rhs = .ok row)
    (hread : readLine ctx.scopes row = .ok (some (.label label), scopes)) :
    AssignsMark ctx (first :: mark :: rhs) (first.withVal (.malformed first.val .badAssigned))
      { ctx with scopes := scopes }

/-- A line is a call of which some lines are read and the next one is refused. Behind it aliases
have followed the lines that were read. -/
inductive StopsMidway (ctx : Context) (tokens : List Token) (e : Located LineError) :
    Context → Prop
  | intro {lhs rhs : List Token} {arrow : Token} {c : Call} {front back : List (List (List Char))}
    {line : List (List Char)} {stmts : List (Located Statement)}
    (hsplit : splitAt? Call.arrow tokens = some (lhs, arrow, rhs))
    (hcall : Call.read? ctx.aliases lhs arrow rhs = .ok c)
    (hlines : c.lines = .ok (front ++ line :: back)) (hne : front ≠ [])
    (hfront : (ctx.statements (front.map fun line => line.map arrow.withVal)).1 = .ok stmts)
    (hline : readLine ctx.scopes (line.map arrow.withVal) = .error e) :
    StopsMidway ctx tokens e
      { ctx with aliases := ctx.aliases.shift c.stack (c.moves.take front.length).sum }

theorem eq_of_plain_eq_error (h : ctx.plain tokens = (.error e, next)) : next = ctx := by
  rw [plain] at h
  split at h
  · exact (Prod.mk.inj h).2.symm
  · split at h
    · next hstmt =>
      obtain ⟨-, rfl⟩ := Prod.mk.inj h
      exact (statement_eq_error_iff.mp hstmt).2
    · simp at h

/-- A row that is no operation changes no aliases, and unless it is the definition of a label it
changes nothing. -/
theorem eq_of_statement_eq_ok {row : List Token} {stmt : Option (Located Statement)}
    (h : ctx.statement row = (.ok stmt, next)) (hop : ∀ op, stmt.map (·.val) ≠ some (.op op)) :
    next = { ctx with scopes := next.scopes } ∧
      ((∀ label, stmt.map (·.val) ≠ some (.label label)) → next = ctx) := by
  have hread := readLine_of_statement h
  have haliases : next = { ctx with scopes := next.scopes } := by
    rw [statement, hread] at h
    refine (Prod.mk.inj h).2.symm.trans ?_
    rcases stmt with _ | ⟨loc, label | items | op⟩
    · rfl
    · rfl
    · rfl
    · exact absurd rfl (hop op)
  refine ⟨haliases, fun hlabel => ?_⟩
  have hscopes : next.scopes = ctx.scopes := by
    generalize stmt.map (·.val) = s at hread hlabel
    generalize next.scopes = scopes at hread ⊢
    cases readLine_reads hread with
    | blank => rfl
    | data => rfl
    | op => rfl
    | start => exact absurd rfl (hlabel _)
    | finish => exact absurd rfl (hlabel _)
    | label => exact absurd rfl (hlabel _)
  rw [haliases, hscopes]

/-- An assignment that is refused leaves nothing behind, unless a label has been read. -/
theorem assign_eq_error_iff {first : Token} {rhs : List Token} (hne : next ≠ ctx) :
    ctx.assign first rhs = (.error e, next) ↔ ∃ row label scopes,
      ctx.aliases.substitute rhs = .ok row ∧
      readLine ctx.scopes row = .ok (some (.label label), scopes) ∧
      e = first.withVal (.malformed first.val .badAssigned) ∧
      next = { ctx with scopes := scopes } := by
  constructor
  · intro h
    rw [assign] at h
    rcases hrow : ctx.aliases.substitute rhs with e | row <;> rw [hrow] at h
    · exact absurd (Prod.mk.inj h).2.symm hne
    dsimp only at h
    rcases hstmt : ctx.statement row with ⟨e | stmt, mid⟩ <;> rw [hstmt] at h
    · obtain rfl := (Prod.mk.inj h).2
      exact absurd (statement_eq_error_iff.mp hstmt).2 hne
    rcases stmt with _ | ⟨loc, label | items | op⟩
    · obtain rfl := (Prod.mk.inj h).2
      exact absurd ((eq_of_statement_eq_ok hstmt (by simp)).2 (by simp)) hne
    · obtain ⟨he, rfl⟩ := Prod.mk.inj h
      exact ⟨row, label, mid.scopes, rfl, readLine_of_statement hstmt, (Except.error.inj he).symm,
        (eq_of_statement_eq_ok hstmt (by simp)).1⟩
    · obtain rfl := (Prod.mk.inj h).2
      exact absurd ((eq_of_statement_eq_ok hstmt (by simp)).2 (by simp)) hne
    · simp at h
  · rintro ⟨row, label, scopes, hrow, hread, rfl, rfl⟩
    rw [assign, hrow]
    dsimp only
    rcases row with _ | ⟨tk, rest⟩
    · cases hread
    · rw [statement, hread]
      rfl

/-- A call that is refused leaves nothing behind, or what some of its lines have left. -/
theorem call_eq_error_iff {lhs rhs : List Token} {arrow : Token} (hne : next ≠ ctx) :
    ctx.call lhs arrow rhs = (.error e, next) ↔ ∃ c front line back stmts,
      Call.read? ctx.aliases lhs arrow rhs = .ok c ∧ c.lines = .ok (front ++ line :: back) ∧
      front ≠ [] ∧ (ctx.statements (front.map fun line => line.map arrow.withVal)).1 = .ok stmts ∧
      readLine ctx.scopes (line.map arrow.withVal) = .error e ∧
      next = { ctx with aliases := ctx.aliases.shift c.stack (c.moves.take front.length).sum } := by
  constructor
  · intro h
    rw [call] at h
    rcases hcall : Call.read? ctx.aliases lhs arrow rhs with e | c <;> rw [hcall] at h
    · exact absurd (Prod.mk.inj h).2.symm hne
    dsimp only at h
    rcases hlines : c.lines with e | lines <;> rw [hlines] at h
    · exact absurd (Prod.mk.inj h).2.symm hne
    rw [at?_ok] at h
    dsimp only at h
    rcases hstmts : ctx.statements (lines.map fun line => line.map arrow.withVal)
      with ⟨e' | stmts, mid⟩ <;> rw [hstmts] at h
    · obtain ⟨he, rfl⟩ := Prod.mk.inj h
      obtain rfl := Except.error.inj he
      obtain ⟨frontRows, row, backRows, stmts, hrows, hfront, hread⟩ :=
        statements_eq_error_iff.mp hstmts
      obtain ⟨front, others, rfl, rfl, hothers⟩ := List.map_eq_append_iff.mp hrows
      obtain ⟨line, back, rfl, rfl, rfl⟩ := List.map_eq_cons_iff.mp hothers
      have hfrontNe : front ≠ [] := by
        rintro rfl
        exact hne (Prod.mk.inj hfront).2.symm
      have hmid := snd_statements_of_lines (Call.kept_le hcall) hlines hfrontNe arrow hfront
      have hscopes : mid.scopes = ctx.scopes := by rw [hmid]
      exact ⟨c, front, line, back, stmts, rfl, hlines, hfrontNe, by rw [hfront],
        hscopes ▸ hread, hmid⟩
    · simp at h
  · rintro ⟨c, front, line, back, stmts, hcall, hlines, hfrontNe, hfront, hread, rfl⟩
    have hmid := snd_statements_of_lines (Call.kept_le hcall) hlines hfrontNe arrow
      (Prod.ext hfront rfl)
    have hrefused : ctx.statements ((front ++ line :: back).map fun line => line.map arrow.withVal)
        = (.error e, { ctx with
            aliases := ctx.aliases.shift c.stack (c.moves.take front.length).sum }) := by
      rw [List.map_append, List.map_cons]
      exact statements_eq_error_iff.mpr ⟨_, _, _, stmts, rfl, Prod.ext hfront hmid, hread⟩
    rw [call, hcall]
    dsimp only
    rw [hlines, at?_ok]
    dsimp only
    rw [hrefused]

/-- **Which refused lines leave something behind, and what.** A line is refused and leaves another
context than it found exactly if it assigns the mark of a block, which is then open or closed, or is
a call of which some lines are read before one is refused. In all other cases the lines behind a
refused line are read as if it were not there. -/
theorem leaves_trace_iff :
    (ctx.expand tokens = (.error e, next) ∧ next ≠ ctx) ↔
      (ctx.AssignsMark tokens e next ∨ ctx.StopsMidway tokens e next) ∧ next ≠ ctx := by
  refine and_congr_left fun hne => ⟨fun h => ?_, ?_⟩
  · rcases harrow : splitAt? Call.arrow tokens with _ | ⟨lhs, arrow, rhs⟩
    · obtain ⟨lhs, arrow, rhs, hcall, -⟩ | ⟨first, rest, names, mark, rhs, -, -, -, hexpand⟩
        | ⟨first, mark, rhs, rfl, hfirst, hsplit, hmark, hexpand⟩ | hexpand :=
        ctx.expand_cases tokens
      · rw [harrow] at hcall
        cases hcall
      · rw [hexpand] at h
        split at h
        · exact absurd (Prod.mk.inj h).2.symm hne
        · simp at h
      · rw [hexpand] at h
        obtain ⟨row, label, scopes, hrow, hread, rfl, rfl⟩ := (assign_eq_error_iff hne).mp h
        exact .inl (.intro harrow hfirst hsplit hmark hrow hread)
      · rw [hexpand] at h
        exact absurd (eq_of_plain_eq_error h) hne
    · rw [expand.eq_def, harrow] at h
      obtain ⟨c, front, line, back, stmts, hcall, hlines, hfrontNe, hfront, hread, rfl⟩ :=
        (call_eq_error_iff hne).mp h
      exact .inr (.intro harrow hcall hlines hfrontNe hfront hread)
  · rintro (⟨harrow, hfirst, hsplit, hmark, hrow, hread⟩ |
      ⟨hsplit, hcall, hlines, hfrontNe, hfront, hread⟩)
    · rw [expand_of_assignment harrow hfirst hsplit hmark]
      exact (assign_eq_error_iff hne).mpr ⟨_, _, _, hrow, hread, rfl, rfl⟩
    · rw [expand.eq_def, hsplit]
      exact (call_eq_error_iff hne).mpr
        ⟨_, _, _, _, _, hcall, hlines, hfrontNe, hfront, hread, rfl⟩

/-- A call whose second argument is no operand. -/
def brokenCall : List Token :=
  [⟨⟨1, 1⟩, "1.mem".toList⟩, ⟨⟨1, 7⟩, "<=".toList⟩, ⟨⟨1, 10⟩, "f(2.reg,".toList⟩,
    ⟨⟨1, 19⟩, "9.reg)".toList⟩]

/-- An assignment of the mark of a block. -/
def markAssignment : List Token :=
  [⟨⟨1, 1⟩, "$x".toList⟩, ⟨⟨1, 4⟩, "=".toList⟩, ⟨⟨1, 6⟩, ['\x7b']⟩]

/-- **Refused lines do leave something behind.** The call leaves a tracked alias two words further
off than it was, and the assignment leaves a block open, so that the mark of its end is accepted on
the next line. -/
theorem exists_refused_with_trace :
    (∃ e next, trackedContext.expand brokenCall = (.error e, next) ∧
      trackedContext.aliases.get? "$a".toList = some (.tracked .r1 0) ∧
      next.aliases.get? "$a".toList = some (.tracked .r1 2)) ∧
    ∃ e next stmts, expand {} markAssignment = (.error e, next) ∧
      (next.expand [⟨⟨2, 1⟩, ['\x7d']⟩]).1 = .ok stmts ∧
      (expand {} [⟨⟨2, 1⟩, ['\x7d']⟩]).1 = .error ⟨⟨2, 1⟩, .unbalancedBlock⟩ := by
  have hrefused : (trackedContext.expand brokenCall).1.toOption.isNone = true := by decide +kernel
  have hget : (trackedContext.expand brokenCall).2.aliases.get? "$a".toList
      = some (.tracked .r1 2) := by
    decide +kernel
  refine ⟨?_, _, _, _, rfl, rfl, rfl⟩
  rcases hcall : trackedContext.expand brokenCall with ⟨e | stmts, next⟩ <;>
    rw [hcall] at hrefused hget
  · exact ⟨e, next, rfl, by decide, hget⟩
  · cases hrefused

end Context

end Assembly

end WordMachine
