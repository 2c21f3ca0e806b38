import WordMachine.Assembly.Expansion
import WordMachine.Proofs.Operations

/-!
# Lines made of other lines

Most lines come to the statement that is written on them, and a call comes to those of several lines
of its own. A few facts about such lines are stated here for later use: a line in which nothing is
an alias or an arrow is taken as it is, lines one behind another come to statements one behind
another, and a line of whatever tokens has one of four forms.

## Main results

* `readLine_mnemonic`: a line that begins with a mnemonic is an operation
* `Context.expand_of_plain`: a line without aliases and calls comes to its own statement
* `Context.statements_append`: lines come to the statements of some and then of the others
* `Context.expand_cases`: the four forms of a line
-/

namespace WordMachine

namespace Assembly

/-! ### Lines of code -/

/-- The first word of a line of code. -/
def mnemonic : Class → List Char
  | .copy => "copy".toList
  | .compute => "compute".toList

/-- A line that begins with a mnemonic is an operation. -/
theorem readLine_mnemonic {cls : Class} {scopes : Scopes} {first : Token} {rest : List Token}
    (hfirst : first.val = mnemonic cls) : readLine scopes (first :: rest) =
      (readOperation cls scopes first rest).map fun op => (some (.op op), scopes) := by
  rw [readLine, hfirst]
  cases cls <;> rcases readOperation _ scopes first rest with e | op <;> rfl

/-! ### Lines that are taken as they are -/

theorem AliasTable.substituteAfter_of_no_alias (t : AliasTable) (done : List Token)
    {tokens : List Token} (h : ∀ tk ∈ tokens, Alias.isName tk.val = false) :
    t.substituteAfter done tokens = .ok (done.reverse ++ tokens) := by
  induction tokens generalizing done with
  | nil => rw [substituteAfter, List.append_nil]
  | cons tk rest ih =>
    have htk := h tk List.mem_cons_self
    rw [substituteAfter, htk]
    simp only [Bool.false_eq_true, if_false]
    rw [ih _ fun other hother => h other (List.mem_cons_of_mem tk hother), List.reverse_cons,
      List.append_assoc, List.singleton_append]

theorem AliasTable.substitute_of_no_alias (t : AliasTable) {tokens : List Token}
    (h : ∀ tk ∈ tokens, Alias.isName tk.val = false) : t.substitute tokens = .ok tokens :=
  t.substituteAfter_of_no_alias [] h

namespace Context

theorem splitAt?_eq_none {t : List Char} {tokens : List Token} (h : ∀ tk ∈ tokens, tk.val ≠ t) :
    splitAt? t tokens = none := by
  induction tokens with
  | nil => rfl
  | cons tk rest ih =>
    rw [splitAt?, if_neg (h tk List.mem_cons_self),
      ih fun other hother => h other (List.mem_cons_of_mem tk hother), Option.map_none]

theorem splitAt?_append {t : List Char} {before : List Token} {found : Token}
    (h : ∀ tk ∈ before, tk.val ≠ t) (hfound : found.val = t) (behind : List Token) :
    splitAt? t (before ++ found :: behind) = some (before, found, behind) := by
  induction before with
  | nil => rw [List.nil_append, splitAt?, if_pos hfound]
  | cons tk rest ih =>
    rw [List.cons_append, splitAt?, if_neg (h tk List.mem_cons_self),
      ih fun other hother => h other (List.mem_cons_of_mem tk hother), Option.map_some]

/-- A line without aliases and calls comes to its own statement. -/
theorem expand_of_plain (ctx : Context) {tokens : List Token}
    (halias : ∀ tk ∈ tokens, Alias.isName tk.val = false)
    (harrow : ∀ tk ∈ tokens, tk.val ≠ Call.arrow) :
    ctx.expand tokens = ((ctx.statement tokens).1.map Option.toList, (ctx.statement tokens).2) := by
  have hplain : ctx.expand tokens = ctx.plain tokens := by
    unfold expand
    rw [splitAt?_eq_none harrow]
    cases tokens with
    | nil => rfl
    | cons first rest =>
      dsimp only
      rw [halias first List.mem_cons_self]
      rfl
  rw [hplain, plain, ctx.aliases.substitute_of_no_alias halias]
  dsimp only
  rcases ctx.statement tokens with ⟨_ | stmt, next⟩ <;> rfl

end Context

/-! ### Lines made of other lines -/

namespace Context

variable {ctx next : Context} {stmts : List (Located Statement)}

/-- Lines come to the statements of the first of them and of the others behind it. -/
theorem statements_cons_eq_ok_iff {line : List Token} {lines : List (List Token)} :
    ctx.statements (line :: lines) = (.ok stmts, next) ↔
      ∃ first mid others, ctx.statement line = (.ok first, mid) ∧
        mid.statements lines = (.ok others, next) ∧ first.toList ++ others = stmts := by
  constructor
  · intro h
    rw [statements] at h
    split at h
    · simp at h
    · next first mid hfirst =>
      split at h
      · simp at h
      · next others last hothers =>
        obtain ⟨hstmts, rfl⟩ := Prod.mk.inj h
        exact ⟨first, mid, others, hfirst, hothers, Except.ok.inj hstmts⟩
  · rintro ⟨first, mid, others, hfirst, hothers, rfl⟩
    rw [statements, hfirst]
    dsimp only
    rw [hothers]

theorem statements_append (ctx : Context) (front back : List (List Token)) :
    ctx.statements (front ++ back) =
      match ctx.statements front with
      | (.error e, mid) => (.error e, mid)
      | (.ok stmts, mid) =>
        ((mid.statements back).1.map (stmts ++ ·), (mid.statements back).2) := by
  induction front generalizing ctx with
  | nil =>
    rcases h : ctx.statements back with ⟨e | stmts, mid⟩ <;> simp [statements, h, Except.map]
  | cons line rest ih =>
    rw [List.cons_append, statements, statements]
    rcases ctx.statement line with ⟨e | first, mid⟩
    · rfl
    · dsimp only
      rw [ih]
      rcases mid.statements rest with ⟨e | others, last⟩
      · rfl
      · dsimp only
        rcases last.statements back with ⟨e | stmts, final⟩
        · rfl
        · simp [Except.map, List.append_assoc]

/-- A call comes to the statements of its lines. -/
theorem call_eq_ok_iff {lhs rhs : List Token} {arrow : Token} :
    ctx.call lhs arrow rhs = (.ok stmts, next) ↔
      ∃ c lines mid, Call.read? ctx.aliases lhs arrow rhs = .ok c ∧ c.lines = .ok lines ∧
        ctx.statements (lines.map fun line => line.map arrow.withVal) = (.ok stmts, mid) ∧
        next = { mid with aliases := mid.aliases.shift c.stack (-(c.args.length + 1 : Int)) } := by
  constructor
  · intro h
    rw [call] at h
    split at h
    · simp at h
    · next c hc =>
      split at h
      · simp at h
      · next lines hlines =>
        split at h
        · simp at h
        · next others mid hothers =>
          obtain ⟨hstmts, rfl⟩ := Prod.mk.inj h
          obtain rfl := Except.ok.inj hstmts
          exact ⟨c, lines, mid, hc, at?_eq_ok_iff.mp hlines, hothers, rfl⟩
  · rintro ⟨c, lines, mid, hc, hlines, hstmts, rfl⟩
    rw [call, hc]
    dsimp only
    rw [hlines, at?_ok]
    dsimp only
    rw [hstmts]

/-- A line with an arrow behind its first token is a call. -/
theorem call_of_expand {lhs arrow : Token} {rhs : List Token} (harrow : arrow.val = Call.arrow)
    (h : ctx.expand (lhs :: arrow :: rhs) = (.ok stmts, next)) :
    ctx.call [lhs] arrow rhs = (.ok stmts, next) := by
  rw [expand] at h
  by_cases hlhs : lhs.val = Call.arrow
  · -- An arrow in front has nothing before it that could be a stack.
    rw [splitAt?, if_pos hlhs] at h
    obtain ⟨c, lines, mid, hc, -⟩ := call_eq_ok_iff.mp h
    cases hc
  · have hbefore : ∀ tk ∈ [lhs], tk.val ≠ Call.arrow := by simpa using hlhs
    have hsplit : splitAt? Call.arrow (lhs :: arrow :: rhs) = some ([lhs], arrow, rhs) :=
      splitAt?_append hbefore harrow rhs
    rw [hsplit] at h
    exact h

/-! ### The four forms of a line -/

/-- A line has one of four forms: a call, the declaration of names, an assignment, or a line that is
taken as it is. -/
theorem expand_cases (ctx : Context) (tokens : List Token) :
    (∃ lhs arrow rhs, splitAt? Call.arrow tokens = some (lhs, arrow, rhs) ∧
      ctx.expand tokens = ctx.call lhs arrow rhs) ∨
    (∃ first rest names mark rhs, tokens = first :: rest ∧ Alias.isName first.val = true ∧
      splitAt? "as".toList tokens = some (names, mark, rhs) ∧
      ctx.expand tokens = match ctx.declare first names rhs with
        | .error e => (.error e, ctx)
        | .ok aliases => (.ok [], { ctx with aliases := aliases })) ∨
    (∃ first mark rhs, tokens = first :: mark :: rhs ∧ Alias.isName first.val = true ∧
      splitAt? "as".toList tokens = none ∧ mark.val = "=".toList ∧
      ctx.expand tokens = ctx.assign first rhs) ∨
    ctx.expand tokens = ctx.plain tokens := by
  rw [expand.eq_def]
  rcases hcall : splitAt? Call.arrow tokens with _ | ⟨lhs, arrow, rhs⟩
  · right
    rcases tokens with _ | ⟨first, rest⟩
    · exact .inr (.inr rfl)
    · dsimp only
      cases hfirst : Alias.isName first.val with
      | false => exact .inr (.inr rfl)
      | true =>
        rcases hmark : splitAt? "as".toList (first :: rest) with _ | ⟨names, mark, rhs⟩
        · right
          rcases rest with _ | ⟨second, rhs⟩
          · exact .inr rfl
          · by_cases hsecond : second.val = "=".toList
            · exact .inl ⟨first, second, rhs, rfl, hfirst, rfl, hsecond, if_pos hsecond⟩
            · exact .inr (if_neg hsecond)
        · exact .inl ⟨first, rest, names, mark, rhs, rfl, hfirst, rfl, rfl⟩
  · exact .inl ⟨lhs, arrow, rhs, rfl, rfl⟩

theorem expand_of_declaration {first mark : Token} {rest names rhs : List Token}
    (harrow : splitAt? Call.arrow (first :: rest) = none) (hfirst : Alias.isName first.val = true)
    (hsplit : splitAt? "as".toList (first :: rest) = some (names, mark, rhs)) :
    ctx.expand (first :: rest) = match ctx.declare first names rhs with
      | .error e => (.error e, ctx)
      | .ok aliases => (.ok [], { ctx with aliases := aliases }) := by
  rw [expand.eq_def, harrow]
  dsimp only
  refine (if_pos hfirst).trans ?_
  rcases hdeclare : ctx.declare first names rhs with e | aliases <;> simp only [hsplit, hdeclare]

theorem expand_of_assignment {first mark : Token} {rhs : List Token}
    (harrow : splitAt? Call.arrow (first :: mark :: rhs) = none)
    (hfirst : Alias.isName first.val = true)
    (hsplit : splitAt? "as".toList (first :: mark :: rhs) = none) (hmark : mark.val = "=".toList) :
    ctx.expand (first :: mark :: rhs) = ctx.assign first rhs := by
  rw [expand.eq_def, harrow]
  dsimp only
  rw [if_pos hfirst, hsplit]
  exact if_pos hmark

/-- A call has a single token before its arrow, so any other line with an arrow in it is refused. -/
theorem splitAt?_arrow_of_expand {first second : Token} {rest : List Token}
    (hfirst : first.val ≠ Call.arrow) (hsecond : second.val ≠ Call.arrow)
    (h : ctx.expand (first :: second :: rest) = (.ok stmts, next)) :
    splitAt? Call.arrow (first :: second :: rest) = none := by
  rcases hsplit : splitAt? Call.arrow (first :: second :: rest) with _ | ⟨lhs, arrow, rhs⟩
  · rfl
  · rw [expand.eq_def, hsplit] at h
    obtain ⟨c, -, -, hc, -⟩ := call_eq_ok_iff.mp h
    rw [splitAt?, if_neg hfirst, splitAt?, if_neg hsecond] at hsplit
    simp only [Option.map_map, Option.map_eq_some_iff, Function.comp_apply] at hsplit
    obtain ⟨⟨before, _⟩, -, hlhs⟩ := hsplit
    obtain ⟨rfl, -⟩ := Prod.mk.inj hlhs
    cases hc

end Context

end Assembly

end WordMachine
