import WordMachine.Proofs.Expansion

/-!
# Rows

A line may be a call, a declaration, an assignment or a line to be taken as it is. These forms are
told apart here once, and then never again. Each of them hands some rows of tokens without aliases
to `readLine` and does some bookkeeping behind them, so `Context.rows` and one inductive relation,
`Context.Settles`, say all that later files need to know about a line. A row in turn is read in one
of six ways, which `LineReads` lists together with what each does to the open blocks.

## Main results

* `readLine_reads`: the six ways of reading a row
* `Context.settles_expand`: whatever form a line has, it is a matter of its rows
* `Context.exists_op_of_row`: the operation that a row of code comes to
* `Context.answer_of_refused`: how a line ends one of whose rows cannot be read
-/

namespace WordMachine

namespace Assembly

/-! ### Ways of reading a row -/

/-- The label of a name is that name, which is no mark of a block and has nothing in it that a
reference ends with. -/
theorem Label.read?_eq_ok_iff {t : List Char} {label : Label} :
    Label.read? t = .ok label ↔
      label = .named t ∧ t ≠ [] ∧ isReserved t = false ∧ '.' ∉ t ∧ ':' ∉ t := by
  rw [Label.read?]
  split
  · next h => simp [List.isEmpty_iff.mp h]
  · next hempty =>
    rw [List.isEmpty_iff] at hempty
    split
    · next h => simp [h]
    · next hreserved =>
      rw [Bool.not_eq_true] at hreserved
      split
      · next h =>
        rw [Bool.or_eq_true, List.contains_iff_mem, List.contains_iff_mem] at h
        simp only [reduceCtorEq, false_iff]
        rintro ⟨-, -, -, hdot, hcolon⟩
        exact h.elim hdot hcolon
      · next h =>
        rw [Bool.or_eq_true, List.contains_iff_mem, List.contains_iff_mem, not_or] at h
        simp [hempty, hreserved, h.1, h.2, eq_comm]

/-- What a row of tokens is read as, and the blocks that are open behind it. -/
inductive LineReads (scopes : Scopes) : List Token → Option Statement → Scopes → Prop
  | blank : LineReads scopes [] none scopes
  | start (row : List Token) :
    LineReads scopes row (some (.label (scopes.push blockName).1)) (scopes.push blockName).2
  | finish (row : List Token) {label : Label} {next : Scopes}
    (h : scopes.pop? blockName = .ok (label, next)) :
    LineReads scopes row (some (.label label)) next
  | data (row : List Token) (items : List DataItem) :
    LineReads scopes row (some (.data items)) scopes
  | op {cls : Class} {first : Token} {rest : List Token} {op : Operation}
    (hfirst : first.val = mnemonic cls) (h : readOperation cls scopes first rest = .ok op) :
    LineReads scopes (first :: rest) (some (.op op)) scopes
  | label (row : List Token) {name : List Char} {label : Label} (h : Label.read? name = .ok label) :
    LineReads scopes row (some (.label label)) scopes

/-- **A row is read in one of these ways.** -/
theorem readLine_reads {scopes next : Scopes} {row : List Token} {stmt : Option Statement}
    (h : readLine scopes row = .ok (stmt, next)) : LineReads scopes row stmt next := by
  cases row with
  | nil =>
    cases h
    exact .blank
  | cons first rest =>
    rw [readLine] at h
    split at h
    · obtain ⟨_, -, h⟩ := bind_eq_ok_iff.mp h
      cases pure_eq_ok_iff.mp h
      exact .start _
    split at h
    · obtain ⟨_, -, h⟩ := bind_eq_ok_iff.mp h
      obtain ⟨⟨label, mid⟩, hpop, h⟩ := bind_eq_ok_iff.mp h
      cases pure_eq_ok_iff.mp h
      exact .finish _ (at?_eq_ok_iff.mp hpop)
    split at h
    · obtain ⟨items, -, h⟩ := bind_eq_ok_iff.mp h
      cases pure_eq_ok_iff.mp h
      exact .data _ items
    split at h
    · next hcopy =>
      have hfirst : first.val = mnemonic .copy := hcopy
      obtain ⟨op, hop, h⟩ := bind_eq_ok_iff.mp h
      cases pure_eq_ok_iff.mp h
      exact .op hfirst hop
    split at h
    · next hcompute =>
      have hfirst : first.val = mnemonic .compute := hcompute
      obtain ⟨op, hop, h⟩ := bind_eq_ok_iff.mp h
      cases pure_eq_ok_iff.mp h
      exact .op hfirst hop
    split at h
    · obtain ⟨_, -, h⟩ := bind_eq_ok_iff.mp h
      obtain ⟨label, hlabel, h⟩ := bind_eq_ok_iff.mp h
      cases pure_eq_ok_iff.mp h
      exact .label _ (at?_eq_ok_iff.mp hlabel)
    · cases h

/-- A statement that is read from some row. -/
def Statement.IsRead (s : Statement) : Prop :=
  ∃ (scopes : Scopes) (row : List Token) (next : Scopes),
    readLine scopes row = .ok (some s, next)

/-- An operation that was read passed the checks of its draft. -/
theorem Statement.IsRead.readOperation {op : Operation} (h : (Statement.op op).IsRead) :
    ∃ (cls : Class) (scopes : Scopes) (mnemonic : Token) (rest : List Token),
      Assembly.readOperation cls scopes mnemonic rest = .ok op := by
  obtain ⟨scopes, row, next, h⟩ := h
  cases readLine_reads h with
  | op _ hop => exact ⟨_, scopes, _, _, hop⟩

namespace Context

variable {ctx next : Context} {row : List Token} {rs : List (List Token)}
  {stmts : List (Located Statement)}

/-- A row that is refused changes nothing. -/
theorem statement_of_error {e : Located LineError} (h : readLine ctx.scopes row = .error e) :
    ctx.statement row = (.error e, ctx) := by
  rw [statement, h]

theorem eq_of_statement_error {e : Located LineError} (h : ctx.statement row = (.error e, next)) :
    next = ctx := by
  rw [statement] at h
  split at h
  · exact (Prod.mk.inj h).2.symm
  · simp at h

/-- A row comes to the statement that it is read as, and the open blocks are those behind it. -/
theorem readLine_of_statement {stmt : Option (Located Statement)}
    (h : ctx.statement row = (.ok stmt, next)) :
    readLine ctx.scopes row = .ok (stmt.map (·.val), next.scopes) := by
  rw [statement] at h
  split at h
  · simp at h
  · next s scopes hread =>
    obtain ⟨hstmt, rfl⟩ := Prod.mk.inj h
    rw [hread, ← Except.ok.inj hstmt]
    rcases row with _ | ⟨first, rest⟩
    · cases hread
      rfl
    · rcases s with _ | s <;> rfl

/-- A line of code comes to its operation. -/
theorem exists_op_of_statement {cls : Class} {first : Token} {rest : List Token}
    (hfirst : first.val = mnemonic cls) {stmt : Option (Located Statement)}
    (h : ctx.statement (first :: rest) = (.ok stmt, next)) :
    ∃ op, readLine ctx.scopes (first :: rest) = .ok (some (.op op), ctx.scopes) ∧
      stmt = some (first.withVal (.op op)) ∧ next = ⟨ctx.aliases.track op, ctx.scopes⟩ := by
  rw [statement] at h
  split at h
  · simp at h
  · next s scopes hread =>
    have hop := hread
    rw [readLine_mnemonic hfirst, map_eq_ok_iff] at hop
    obtain ⟨op, -, hs⟩ := hop
    obtain ⟨rfl, rfl⟩ := Prod.mk.inj hs
    obtain ⟨hval, hnext⟩ := Prod.mk.inj h
    exact ⟨op, hread, (Except.ok.inj hval).symm, hnext.symm⟩

/-- Behind a row that is not refused the others are read in the context that it has left. -/
theorem snd_statements_cons {stmt : Option (Located Statement)}
    (h : ctx.statement row = (.ok stmt, next)) (rest : List (List Token)) :
    (ctx.statements (row :: rest)).2 = (next.statements rest).2 := by
  rw [statements, h]
  dsimp only
  rcases next.statements rest with ⟨e | others, last⟩ <;> rfl

/-- Whatever rows come to, one of them came to it. -/
theorem exists_row_of_mem_statements (h : ctx.statements rs = (.ok stmts, next))
    {stmt : Located Statement} (hmem : stmt ∈ stmts) :
    ∃ front row back behind, rs = front ++ row :: back ∧
      (ctx.statements front).2.statement row = (.ok (some stmt), behind) := by
  induction rs generalizing ctx stmts with
  | nil =>
    simp only [statements, Prod.mk.injEq, Except.ok.injEq] at h
    simp [← h.1] at hmem
  | cons row rest ih =>
    obtain ⟨first, mid, others, hfirst, hothers, rfl⟩ := statements_cons_eq_ok_iff.mp h
    rw [List.mem_append, Option.mem_toList] at hmem
    rcases hmem with rfl | hmem
    · exact ⟨[], row, rest, mid, rfl, hfirst⟩
    · obtain ⟨front, other, back, behind, rfl, hother⟩ := ih hothers hmem
      refine ⟨row :: front, other, back, behind, rfl, ?_⟩
      rw [snd_statements_cons hfirst]
      exact hother

end Context

/-! ### The rows of a line -/

namespace Context

variable {ctx next : Context} {tokens : List Token} {stmts : List (Located Statement)}
  {rs : List (List Token)}

/-- The rows of tokens that a line hands to the reader, in order. -/
def rows (ctx : Context) (tokens : List Token) : Checked (List (List Token)) :=
  let asItIs := (ctx.aliases.substitute tokens).map ([·])
  match splitAt? Call.arrow tokens with
  | some (lhs, arrow, rhs) => do
    let c ← Call.read? ctx.aliases lhs arrow rhs
    let lines ← at? arrow c.lines
    return lines.map fun line => line.map arrow.withVal
  | none =>
    match tokens with
    | [] => asItIs
    | first :: rest =>
      if Alias.isName first.val then
        match splitAt? "as".toList tokens with
        | some _ => .ok []
        | none =>
          match rest with
          | second :: rhs =>
            if second.val = "=".toList then (ctx.aliases.substitute rhs).map ([·]) else asItIs
          | [] => asItIs
      else asItIs

/-- A line without aliases and calls is its own row. -/
theorem rows_of_plain (ctx : Context) (halias : ∀ tk ∈ tokens, Alias.isName tk.val = false)
    (harrow : ∀ tk ∈ tokens, tk.val ≠ Call.arrow) : ctx.rows tokens = .ok [tokens] := by
  rw [rows.eq_def, splitAt?_eq_none harrow, ctx.aliases.substitute_of_no_alias halias]
  cases tokens with
  | nil => rfl
  | cons first rest =>
    dsimp only
    rw [halias first List.mem_cons_self]
    rfl

/-- How a line ends that hands over some rows. It may be refused before anything is read, or with
the first row that is. Behind the rows it may change what aliases there are and may still be
refused, but it comes to no other statements, and the open blocks are those that the rows have left.
-/
inductive Settles (ctx : Context) :
    Checked (List (List Token)) → Checked (List (Located Statement)) × Context → Prop
  | unread (e : Located LineError) : Settles ctx (.error e) (.error e, ctx)
  | refused {rs : List (List Token)} {e : Located LineError} {mid : Context}
    (h : ctx.statements rs = (.error e, mid)) : Settles ctx (.ok rs) (.error e, mid)
  | late {rs : List (List Token)} {stmts : List (Located Statement)} {mid : Context}
    (e : Located LineError) (h : ctx.statements rs = (.ok stmts, mid)) :
    Settles ctx (.ok rs) (.error e, mid)
  | accepted {rs : List (List Token)} {stmts : List (Located Statement)} {mid : Context}
    (aliases : AliasTable) (h : ctx.statements rs = (.ok stmts, mid)) :
    Settles ctx (.ok rs) (.ok stmts, { mid with aliases := aliases })

theorem statements_singleton (ctx : Context) (row : List Token) :
    ctx.statements [row] = ((ctx.statement row).1.map Option.toList, (ctx.statement row).2) := by
  rw [statements]
  rcases ctx.statement row with ⟨e | stmt, mid⟩
  · rfl
  · simp [statements, Except.map]

/-- A line that is taken as it is hands over itself. -/
theorem settles_plain (ctx : Context) (tokens : List Token) :
    ctx.Settles ((ctx.aliases.substitute tokens).map ([·])) (ctx.plain tokens) := by
  rw [plain]
  rcases ctx.aliases.substitute tokens with e | row
  · exact .unread e
  · have hrow := ctx.statements_singleton row
    dsimp only
    rcases h : ctx.statement row with ⟨e | stmt, mid⟩ <;> rw [h] at hrow
    · exact .refused hrow
    · exact .accepted mid.aliases hrow

/-- An assignment hands over what is assigned. -/
theorem settles_assign (ctx : Context) (first : Token) (tokens : List Token) :
    ctx.Settles ((ctx.aliases.substitute tokens).map ([·])) (ctx.assign first tokens) := by
  rw [assign]
  rcases ctx.aliases.substitute tokens with e | row
  · exact .unread e
  · have hrow := ctx.statements_singleton row
    dsimp only
    rcases h : ctx.statement row with ⟨e | _ | ⟨loc, name | items | op⟩, mid⟩ <;> rw [h] at hrow
    · exact .refused hrow
    · exact .late _ hrow
    · exact .late _ hrow
    · exact .late _ hrow
    · exact .accepted _ hrow

/-- A declaration hands over nothing. -/
theorem settles_declare (ctx : Context) (first : Token) (names rhs : List Token) :
    ctx.Settles (.ok []) (match ctx.declare first names rhs with
      | .error e => (.error e, ctx)
      | .ok aliases => (.ok [], { ctx with aliases := aliases })) := by
  rcases ctx.declare first names rhs with e | aliases
  · exact .late e rfl
  · exact .accepted aliases rfl

/-- A call hands over its lines. -/
theorem settles_call (ctx : Context) (lhs : List Token) (arrow : Token) (rhs : List Token) :
    ctx.Settles (do
      let c ← Call.read? ctx.aliases lhs arrow rhs
      let lines ← at? arrow c.lines
      return lines.map fun line => line.map arrow.withVal) (ctx.call lhs arrow rhs) := by
  rw [call]
  rcases Call.read? ctx.aliases lhs arrow rhs with e | c
  · exact .unread e
  · rw [ok_bind]
    dsimp only
    rcases at? arrow c.lines with e | lines
    · exact .unread e
    · rw [ok_bind]
      dsimp only
      rcases h : ctx.statements (lines.map fun line => line.map arrow.withVal) with ⟨e | stmts, mid⟩
        <;> rw [h]
      · exact .refused h
      · exact .accepted _ h

/-- **Whatever form a line has, it is a matter of its rows.** -/
theorem settles_expand (ctx : Context) (tokens : List Token) :
    ctx.Settles (ctx.rows tokens) (ctx.expand tokens) := by
  have hplain := ctx.settles_plain
  rw [rows.eq_def, expand.eq_def]
  rcases splitAt? Call.arrow tokens with _ | ⟨lhs, arrow, rhs⟩
  · dsimp only
    rcases tokens with _ | ⟨first, rest⟩
    · exact hplain []
    · dsimp only
      cases Alias.isName first.val with
      | false => exact hplain (first :: rest)
      | true =>
        rcases splitAt? "as".toList (first :: rest) with _ | ⟨names, _, rhs⟩
        · rcases rest with _ | ⟨second, rhs⟩
          · exact hplain [first]
          · by_cases hassign : second.val = "=".toList
            · simp only [if_pos hassign, if_true]
              exact ctx.settles_assign first rhs
            · simp only [if_neg hassign, if_true]
              exact hplain (first :: second :: rhs)
        · exact ctx.settles_declare first names rhs
  · exact ctx.settles_call lhs arrow rhs

/-- What a line comes to is what its rows come to, and nothing else changes the open blocks. -/
theorem exists_rows_of_expand (h : ctx.expand tokens = (.ok stmts, next)) :
    ∃ rs, ctx.rows tokens = .ok rs ∧
      ∃ mid, ctx.statements rs = (.ok stmts, mid) ∧ next.scopes = mid.scopes := by
  have hsettles := ctx.settles_expand tokens
  rw [h] at hsettles
  rcases hrows : ctx.rows tokens with e | rs <;> rw [hrows] at hsettles <;> cases hsettles
  next mid aliases hstmts => exact ⟨rs, rfl, mid, hstmts, rfl⟩

/-- What a line comes to was read from a row. -/
theorem isRead_of_mem_expand (h : ctx.expand tokens = (.ok stmts, next))
    {stmt : Located Statement} (hmem : stmt ∈ stmts) : stmt.val.IsRead := by
  obtain ⟨rs, -, mid, hstmts, -⟩ := exists_rows_of_expand h
  obtain ⟨front, row, back, behind, -, hrow⟩ := exists_row_of_mem_statements hstmts hmem
  exact ⟨_, row, _, readLine_of_statement hrow⟩

end Context

/-! ### Several rows

Only a call hands over more than one row, and its rows are lines of code, which leave the open
blocks as they are. So all rows of a line are read under the blocks that were open before it. -/

/-- The words of a line of code. -/
def IsCode (words : List (List Char)) : Prop := ∃ cls rest, words = mnemonic cls :: rest

namespace Call

theorem isCode_of_mem_pushLines {stack : Reg} {moved : Int} {args : List (List Token)}
    {lines : List (List (List Char))} (h : pushLines stack moved args = .ok lines) :
    ∀ line ∈ lines, IsCode line := by
  induction args generalizing moved lines with
  | nil =>
    cases h
    simp
  | cons arg rest ih =>
    simp only [pushLines, bind_eq_ok_iff, pure_eq_ok_iff] at h
    obtain ⟨words, -, others, hothers, rfl⟩ := h
    rw [List.forall_mem_cons]
    exact ⟨⟨.copy, _, rfl⟩, ih hothers⟩

/-- All lines of a call are lines of code. -/
theorem isCode_of_mem_lines {c : Call} {lines : List (List (List Char))} (h : c.lines = .ok lines) :
    ∀ line ∈ lines, IsCode line := by
  simp only [Call.lines, bind_eq_ok_iff, pure_eq_ok_iff] at h
  obtain ⟨pushes, hpushes, rfl⟩ := h
  have hpushed := isCode_of_mem_pushLines hpushes
  have hkeep : ∀ line ∈ (if c.kept = 0 then []
      else [["copy".toList, regText c.stack, immText (-(c.kept : Int)), regText c.stack]]),
      IsCode line := by
    split
    · simp
    · simpa using ⟨.copy, _, rfl⟩
  simp only [List.forall_mem_append, List.forall_mem_singleton]
  exact ⟨⟨⟨hkeep, .copy, _, rfl⟩, hpushed⟩, .copy, _, rfl⟩

/-- And so are the rows of tokens that are made of them. -/
theorem isCode_of_mem_rows {c : Call} {lines : List (List (List Char))} (h : c.lines = .ok lines)
    (tk : Token) : ∀ row ∈ lines.map fun line => line.map tk.withVal, IsCode (row.map (·.val)) := by
  intro row hrow
  obtain ⟨line, hline, rfl⟩ := List.mem_map.mp hrow
  obtain ⟨cls, rest, rfl⟩ := isCode_of_mem_lines h line hline
  refine ⟨cls, rest, ?_⟩
  rw [List.map_map]
  exact List.map_id _

end Call

namespace Context

variable {ctx next : Context} {tokens : List Token} {stmts : List (Located Statement)}
  {rs : List (List Token)}

/-- A line hands over one row at most, or lines of code alone. -/
theorem length_rows_le_or (h : ctx.rows tokens = .ok rs) :
    rs.length ≤ 1 ∨ ∀ row ∈ rs, IsCode (row.map (·.val)) := by
  have hone : ∀ row, (ctx.aliases.substitute row).map ([·]) = .ok rs → rs.length ≤ 1 := by
    intro row hrow
    obtain ⟨row', -, rfl⟩ := map_eq_ok_iff.mp hrow
    exact Nat.le_refl 1
  rw [rows.eq_def] at h
  rcases hcall : splitAt? Call.arrow tokens with _ | ⟨lhs, arrow, rhs⟩ <;> rw [hcall] at h
  · left
    dsimp only at h
    split at h
    · exact hone _ h
    · split at h
      · split at h
        · cases h
          exact Nat.zero_le 1
        · split at h
          · split at h
            · exact hone _ h
            · exact hone _ h
          · exact hone _ h
      · exact hone _ h
  · right
    obtain ⟨c, -, h⟩ := bind_eq_ok_iff.mp h
    obtain ⟨lines, hlines, h⟩ := bind_eq_ok_iff.mp h
    obtain rfl := pure_eq_ok_iff.mp h
    exact Call.isCode_of_mem_rows (at?_eq_ok_iff.mp hlines) arrow

/-- The first of several lines, if it is a line of code, comes to an operation. The others are read
behind it, when tracked aliases have followed it. -/
theorem exists_op_of_statements_cons {row : List Token} {rest : List (List Token)}
    (hrow : IsCode (row.map (·.val))) (h : ctx.statements (row :: rest) = (.ok stmts, next)) :
    ∃ op stmt others, stmts = stmt :: others ∧ stmt.val = .op op ∧
      readLine ctx.scopes row = .ok (some (.op op), ctx.scopes) ∧
      statements ⟨ctx.aliases.track op, ctx.scopes⟩ rest = (.ok others, next) := by
  obtain ⟨cls, words, hwords⟩ := hrow
  obtain ⟨first, tokens, rfl, hfirst, -⟩ := List.map_eq_cons_iff.mp hwords
  obtain ⟨_, mid, others, hstmt, hothers, rfl⟩ := statements_cons_eq_ok_iff.mp h
  obtain ⟨op, hread, rfl, rfl⟩ := exists_op_of_statement hfirst hstmt
  exact ⟨op, _, others, rfl, rfl, hread, hothers⟩

/-- A line of code leaves the open blocks as they are, even one that is refused. -/
theorem scopes_statement {row : List Token} (hrow : IsCode (row.map (·.val))) :
    (ctx.statement row).2.scopes = ctx.scopes := by
  obtain ⟨cls, words, hwords⟩ := hrow
  obtain ⟨first, rest, rfl, hfirst, -⟩ := List.map_eq_cons_iff.mp hwords
  rw [statement, readLine_mnemonic hfirst]
  rcases readOperation cls ctx.scopes first rest with e | op <;> rfl

theorem scopes_statements (hrows : ∀ row ∈ rs, IsCode (row.map (·.val))) :
    (ctx.statements rs).2.scopes = ctx.scopes := by
  induction rs generalizing ctx with
  | nil => rfl
  | cons row rest ih =>
    rw [List.forall_mem_cons] at hrows
    have hrow := ctx.scopes_statement hrows.1
    rcases hstmt : ctx.statement row with ⟨e | stmt, mid⟩ <;> rw [hstmt] at hrow
    · rw [statements, hstmt]
      exact hrow
    · rw [snd_statements_cons hstmt]
      exact (ih hrows.2).trans hrow

/-- Before any row of a line the open blocks are those before the line. -/
theorem scopes_before_row {front back : List (List Token)} {row : List Token}
    (h : ctx.rows tokens = .ok (front ++ row :: back)) :
    (ctx.statements front).2.scopes = ctx.scopes := by
  rcases length_rows_le_or h with hlength | hcode
  · rw [List.length_append, List.length_cons] at hlength
    obtain rfl : front = [] := List.length_eq_zero_iff.mp (by omega)
    rfl
  · exact scopes_statements fun row hrow => hcode row (List.mem_append_left _ hrow)

/-- A row that is no line of code is the only one of its line. -/
theorem eq_singleton_of_rows (h : ctx.rows tokens = .ok rs) {row : List Token} (hmem : row ∈ rs)
    (hrow : ¬ IsCode (row.map (·.val))) : rs = [row] := by
  rcases length_rows_le_or h with hlength | hcode
  · obtain ⟨front, back, rfl⟩ := List.append_of_mem hmem
    rw [List.length_append, List.length_cons] at hlength
    obtain rfl : front = [] := List.length_eq_zero_iff.mp (by omega)
    obtain rfl : back = [] := List.length_eq_zero_iff.mp (by omega)
    rfl
  · exact absurd (hcode row hmem) hrow

/-- **A row of code is an operation on its line**, read under the blocks that were open before the
line. -/
theorem exists_op_of_row (hrows : ctx.rows tokens = .ok rs)
    (h : ctx.expand tokens = (.ok stmts, next)) {cls : Class} {first : Token} {rest : List Token}
    (hrow : first :: rest ∈ rs) (hfirst : first.val = mnemonic cls) :
    ∃ op, .op op ∈ stmts.map (·.val) ∧ readOperation cls ctx.scopes first rest = .ok op := by
  obtain ⟨rs, hrs, mid, hstmts, -⟩ := exists_rows_of_expand h
  obtain rfl := Except.ok.inj (hrows.symm.trans hrs)
  obtain ⟨front, back, rfl⟩ := List.append_of_mem hrow
  have hscopes := scopes_before_row hrows
  rw [statements_append] at hstmts
  rcases hfront : ctx.statements front with ⟨e | before, behind⟩ <;> rw [hfront] at hstmts hscopes
  · simp at hstmts
  · obtain ⟨hval, -⟩ := Prod.mk.inj hstmts
    obtain ⟨others, hothers, rfl⟩ := map_eq_ok_iff.mp hval
    obtain ⟨stmt, last, more, hstmt, -, rfl⟩ := statements_cons_eq_ok_iff.mp (Prod.ext hothers rfl)
    obtain ⟨op, hread, rfl, -⟩ := exists_op_of_statement hfirst hstmt
    rw [readLine_mnemonic hfirst, map_eq_ok_iff, hscopes] at hread
    obtain ⟨_, hop, heq⟩ := hread
    obtain rfl := Statement.op.inj (Option.some.inj (Prod.mk.inj heq).1)
    exact ⟨_, by simp [Located.withVal], hop⟩

/-- **A row that cannot be read is the end of its line**, unless the line has ended before. -/
theorem answer_of_refused {front back : List (List Token)} {row : List Token}
    (h : ctx.rows tokens = .ok (front ++ row :: back)) {e : Located LineError}
    (hrow : readLine ctx.scopes row = .error e) :
    (ctx.expand tokens).1 = (ctx.statements front).1.bind fun _ => .error e := by
  have hscopes := scopes_before_row h
  have hsettles := ctx.settles_expand tokens
  rw [h] at hsettles
  have hstatements : ctx.statements (front ++ row :: back)
      = ((ctx.statements front).1.bind fun _ => .error e, (ctx.statements front).2) := by
    rw [statements_append]
    rcases hfront : ctx.statements front with ⟨e' | stmts, mid⟩ <;> rw [hfront] at hscopes
    · rfl
    · have hmid : mid.statement row = (.error e, mid) := statement_of_error (hscopes ▸ hrow)
      dsimp only
      rw [statements, hmid]
      rfl
  have hrefused : ∀ stmts : List (Located Statement),
      ((ctx.statements front).1.bind fun _ => .error e) ≠ .ok stmts := by
    intro stmts
    rcases (ctx.statements front).1 with _ | _ <;> simp [Except.bind]
  generalize ctx.expand tokens = answer at hsettles
  cases hsettles with
  | refused hend =>
    rw [hstatements] at hend
    exact (congrArg Prod.fst hend).symm
  | late _ hend =>
    rw [hstatements] at hend
    exact absurd (congrArg Prod.fst hend) (hrefused _)
  | accepted _ hend =>
    rw [hstatements] at hend
    exact absurd (congrArg Prod.fst hend) (hrefused _)

end Context

end Assembly

end WordMachine
