import WordMachine.Proofs.Checked
import WordMachine.Assembly.Expansion

/-!
# Tokens at other places

Every token carries the place where it stands in the source, and hands it on to the statement or to
the error that it gives rise to. No reader does anything else with it. So if all tokens of a line
are moved, all that comes of the line is what came of it before, at the places that the old ones
were moved to, and a refused line is refused for the same reason.

Where an answer has tokens in it, they are moved as well; the second function of `Checked.moved`
says how. There is one lemma for each reader, and each follows the reader's own steps, put together
by `Checked.moved_bind`.

## Main results

* `readLine_moved`: a moved line is the same statement
* `Context.expand_moved`: a moved line comes to the same statements, at the moved places
-/

namespace WordMachine

namespace Assembly

/-- The same thing at another place. -/
def Located.moved {α : Type} (f : Loc → Loc) (x : Located α) : Located α := ⟨f x.loc, x.val⟩

namespace Located

variable {α β : Type} (f : Loc → Loc)

@[simp] theorem val_moved (x : Located α) : (x.moved f).val = x.val := rfl

@[simp] theorem withVal_moved (x : Located α) (b : β) :
    (x.moved f).withVal b = (x.withVal b).moved f := rfl

@[simp] theorem map_val_moved (xs : List (Located α)) :
    (xs.map (moved f)).map (·.val) = xs.map (·.val) := by
  rw [List.map_map]
  rfl

end Located

/-- An answer with its error at another place, and something else made of its value. -/
def Checked.moved {α β : Type} (f : Loc → Loc) (g : α → β) : Checked α → Checked β
  | .error e => .error (e.moved f)
  | .ok a => .ok (g a)

variable {α β γ δ : Type} (f : Loc → Loc)

namespace Checked

@[simp] theorem moved_ok (g : α → β) (a : α) : Checked.moved f g (.ok a) = .ok (g a) := rfl

@[simp] theorem moved_error (g : α → β) (e : Located LineError) :
    Checked.moved f g (.error e) = .error (e.moved f) := rfl

variable {f}

/-- Two readers put together. -/
theorem moved_bind {g : α → β} {h : γ → δ} {x : Checked α} {k : α → Checked γ}
    {k' : β → Checked δ} (hk : ∀ a, k' (g a) = Checked.moved f h (k a)) :
    (Checked.moved f g x >>= k') = Checked.moved f h (x >>= k) := by
  cases x with
  | error e => rfl
  | ok a => exact hk a

theorem moved_mapM {g : β → γ} {k : α → Checked β} {k' : α → Checked γ}
    (hk : ∀ a, k' a = Checked.moved f g (k a)) (xs : List α) :
    xs.mapM k' = Checked.moved f (List.map g) (xs.mapM k) := by
  induction xs with
  | nil => rfl
  | cons x xs ih =>
    rw [List.mapM_cons, List.mapM_cons, hk, ih]
    exact moved_bind fun b => moved_bind fun bs => rfl

end Checked

theorem at?_moved (tk : Token) (r : Except LineError α) :
    at? (tk.moved f) r = Checked.moved f id (at? tk r) := by
  cases r <;> rfl

/-! ### Aliases -/

namespace AliasTable

theorem trackedTokens_moved (tk : Token) (r : Reg) (offset : Int) :
    trackedTokens (tk.moved f) r offset = (trackedTokens tk r offset).map (.moved f) := by
  rw [trackedTokens, trackedTokens]
  split <;> rfl

theorem substituteAfter_moved (t : AliasTable) (done tokens : List Token) :
    t.substituteAfter (done.map (.moved f)) (tokens.map (.moved f)) =
      Checked.moved f (List.map (.moved f)) (t.substituteAfter done tokens) := by
  have hspliced (texts : List (List Char)) (tk : Token) (done : List Token) :
      (texts.map (tk.moved f).withVal).reverse ++ done.map (.moved f) =
        ((texts.map tk.withVal).reverse ++ done).map (.moved f) := by
    simp [Function.comp_def]
  have htracked (tk : Token) (r : Reg) (offset : Int) (done : List Token) :
      (trackedTokens (tk.moved f) r offset).reverse ++ done.map (.moved f) =
        ((trackedTokens tk r offset).reverse ++ done).map (.moved f) := by
    rw [trackedTokens_moved, List.map_append, List.map_reverse]
  fun_induction t.substituteAfter done tokens with
  | case1 done => simp [substituteAfter]
  | case2 done tk rest halias hget => simp [substituteAfter, halias, hget]
  | case3 done tk rest halias text hget ih =>
    rw [List.map_cons, substituteAfter]
    simp only [Located.val_moved, halias, if_true, hget, hspliced]
    exact ih
  | case4 done tk halias r offset hget ih =>
    simp [substituteAfter, halias, hget, trackedTokens_moved]
  | case5 done tk halias r offset hget next rest hnum ih =>
    rw [List.map_cons, substituteAfter]
    simp only [List.map_cons, Located.val_moved, halias, if_true, hget, hnum, htracked]
    exact ih
  | case6 done tk halias r offset hget next rest k hnum hsum =>
    simp [substituteAfter, halias, hget, hnum, hsum]
  | case7 done tk halias r offset hget next rest k hnum sum hsum ih =>
    rw [List.map_cons, substituteAfter]
    simp only [List.map_cons, Located.val_moved, halias, if_true, hget, hnum, hsum, htracked]
    exact ih
  | case8 done tk rest halias ih =>
    rw [List.map_cons, substituteAfter, Located.val_moved, if_neg halias]
    exact ih

theorem substitute_moved (t : AliasTable) (tokens : List Token) :
    t.substitute (tokens.map (.moved f)) =
      Checked.moved f (List.map (.moved f)) (t.substitute tokens) :=
  t.substituteAfter_moved f [] tokens

end AliasTable

/-! ### Lines of code -/

namespace Draft

/-- A draft with all its tokens at other places. -/
def moved (d : Draft) : Draft :=
  { d with
    operands := d.operands.map fun x => (x.1.moved f, x.2)
    srcImm := d.srcImm.map fun x => (x.1.moved f, x.2)
    dstImm := d.dstImm.map fun x => (x.1.moved f, x.2)
    push := d.push.map fun x => (x.1.moved f, x.2) }

theorem once_moved (slot : Option (Token × α)) (tk : Token) (a : α) (t : List Char) :
    once (slot.map fun x => (x.1.moved f, x.2)) (tk.moved f, a) t =
      (once slot (tk, a) t).map (·.map fun x => (x.1.moved f, x.2)) := by
  cases slot <;> rfl

theorem add_moved (d : Draft) (tk : Token) (part : Part) :
    (d.moved f).add (tk.moved f) part = (d.add tk part).map (moved f) := by
  cases part with
  | operand o =>
    simp only [add, moved, List.length_map, Located.val_moved]
    split
    · rfl
    · simp [Except.map, moved]
  | imm i =>
    simp only [add, moved, List.length_map, Located.val_moved, once_moved]
    split
    · cases once d.srcImm (tk, i) tk.val <;> rfl
    · cases once d.dstImm (tk, i) tk.val <;> rfl
    · rfl
  | effect e =>
    simp only [add, moved, Located.val_moved]
    cases once d.effect e tk.val <;> rfl
  | push on =>
    simp only [add, moved, Located.val_moved, once_moved]
    cases once d.push (tk, on) tk.val <;> rfl
  | alu op =>
    simp only [add, moved, Located.val_moved]
    cases once d.alu op tk.val <;> rfl

theorem read_moved (cls : Class) (scopes : Scopes) (d : Draft) (tokens : List Token) :
    (d.moved f).read cls scopes (tokens.map (.moved f)) =
      Checked.moved f (moved f) (d.read cls scopes tokens) := by
  induction tokens generalizing d with
  | nil => rfl
  | cons tk rest ih =>
    rw [List.map_cons, read, read, Located.val_moved, at?_moved]
    refine Checked.moved_bind fun part => ?_
    have hadd : at? (tk.moved f) ((d.moved f).add (tk.moved f) part) =
        Checked.moved f (moved f) (at? tk (d.add tk part)) := by
      rw [add_moved]
      cases d.add tk part <;> rfl
    rw [id, hadd]
    exact Checked.moved_bind fun d => ih d

theorem sides_moved (d : Draft) (mnemonic : Token) :
    (d.moved f).sides (mnemonic.moved f) = Checked.moved f
      (fun x => ((x.1.1.moved f, x.1.2), (x.2.1.moved f, x.2.2))) (d.sides mnemonic) := by
  rw [sides, sides]
  rcases h : d.operands with _ | ⟨src, _ | ⟨dst, _ | ⟨more, rest⟩⟩⟩ <;> simp [moved, h]

theorem opcode_moved (d : Draft) (cls : Class) (mnemonic : Token) :
    (d.moved f).opcode cls (mnemonic.moved f) =
      Checked.moved f id (d.opcode cls mnemonic) := by
  cases cls with
  | copy => rfl
  | compute => cases h : d.alu <;> simp [opcode, moved, h]

theorem sourceOf_moved (x : Token × Operand) :
    sourceOf (x.1.moved f, x.2) = Checked.moved f id (sourceOf x) := by
  rw [sourceOf, sourceOf]
  cases x.2.source? <;> rfl

theorem destinationOf_moved (x : Token × Operand) :
    destinationOf (x.1.moved f, x.2) = Checked.moved f id (destinationOf x) := by
  rw [destinationOf, destinationOf]
  cases x.2.destination? <;> rfl

theorem pushes_moved (hasMem : Bool) (slot : Option (Token × Bool)) :
    pushes hasMem (slot.map fun x => (x.1.moved f, x.2)) =
      Checked.moved f id (pushes hasMem slot) := by
  rcases slot with _ | ⟨tk, _ | _⟩
  · rfl
  · rfl
  · cases hasMem <;> rfl

theorem checkRoom_moved (layout : Layout) (slot : Option (Token × Imm)) :
    checkRoom layout (slot.map fun x => (x.1.moved f, x.2)) =
      Checked.moved f id (checkRoom layout slot) := by
  rcases slot with _ | ⟨tk, i⟩
  · rfl
  · simp only [checkRoom, Option.map_some]
    split <;> rfl

theorem checkImm_moved (range : Range) (slot : Option (Token × Imm)) :
    checkImm range (slot.map fun x => (x.1.moved f, x.2)) =
      Checked.moved f id (checkImm range slot) := by
  rcases slot with _ | ⟨tk, _ | _⟩
  · rfl
  · exact at?_moved ..
  · rfl

theorem complete_moved (d : Draft) (cls : Class) (mnemonic : Token) :
    (d.moved f).complete cls (mnemonic.moved f) =
      Checked.moved f id (d.complete cls mnemonic) := by
  have hslot (slot : Option (Token × Imm)) :
      (slot.map fun x => (x.1.moved f, x.2)).map (·.2) = slot.map (·.2) := by
    rw [Option.map_map]
    rfl
  rw [complete, complete, sides_moved]
  refine Checked.moved_bind fun ⟨src, dst⟩ => ?_
  dsimp only
  rw [opcode_moved]
  refine Checked.moved_bind fun opcode => ?_
  rw [sourceOf_moved]
  refine Checked.moved_bind fun source => ?_
  rw [destinationOf_moved]
  refine Checked.moved_bind fun destination => ?_
  dsimp only [moved, id]
  rw [pushes_moved]
  refine Checked.moved_bind fun push => ?_
  rw [checkRoom_moved]
  refine Checked.moved_bind fun _ => ?_
  rw [checkImm_moved]
  refine Checked.moved_bind fun _ => ?_
  rw [checkImm_moved]
  refine Checked.moved_bind fun _ => ?_
  rw [hslot, hslot]
  rfl

end Draft

theorem readOperation_moved (cls : Class) (scopes : Scopes) (mnemonic : Token)
    (rest : List Token) :
    readOperation cls scopes (mnemonic.moved f) (rest.map (.moved f)) =
      Checked.moved f id (readOperation cls scopes mnemonic rest) := by
  rw [readOperation, readOperation]
  change (Draft.read cls scopes (Draft.moved f {}) _ >>= _) = _
  rw [Draft.read_moved]
  exact Checked.moved_bind fun d => d.complete_moved f cls mnemonic

/-! ### Lines -/

theorem DataDraft.read_moved (d : DataDraft) (last : Token) (tokens : List Token) :
    d.read (last.moved f) (tokens.map (.moved f)) =
      Checked.moved f id (d.read last tokens) := by
  induction tokens generalizing d last with
  | nil =>
    rw [List.map_nil, read, read, at?_moved]
    cases at? last d.flush <;> rfl
  | cons tk rest ih =>
    rw [List.map_cons, read, read, Located.val_moved, at?_moved]
    exact Checked.moved_bind fun d => ih d tk

theorem readData_moved (mark : Token) (rest : List Token) :
    readData (mark.moved f) (rest.map (.moved f)) = Checked.moved f id (readData mark rest) :=
  DataDraft.read_moved f {} mark rest

theorem expectNone_moved (fault : SyntaxFault) (tokens : List Token) :
    expectNone fault (tokens.map (.moved f)) = Checked.moved f id (expectNone fault tokens) := by
  cases tokens <;> rfl

/-- **A moved line is the same statement.** -/
theorem readLine_moved (scopes : Scopes) (tokens : List Token) :
    readLine scopes (tokens.map (.moved f)) = Checked.moved f id (readLine scopes tokens) := by
  cases tokens with
  | nil => rfl
  | cons first rest =>
    simp only [readLine, List.map_cons, Located.val_moved, expectNone_moved, readData_moved,
      readOperation_moved, at?_moved]
    split
    · exact Checked.moved_bind fun _ => rfl
    · split
      · exact Checked.moved_bind fun _ => Checked.moved_bind fun _ => rfl
      · split
        · exact Checked.moved_bind fun _ => rfl
        · split
          · exact Checked.moved_bind fun _ => rfl
          · split
            · exact Checked.moved_bind fun _ => rfl
            · split
              · exact Checked.moved_bind fun _ => Checked.moved_bind fun _ => rfl
              · rfl

namespace Context

theorem statement_moved (ctx : Context) (tokens : List Token) :
    ctx.statement (tokens.map (.moved f)) =
      (Checked.moved f (Option.map (.moved f)) (ctx.statement tokens).1,
        (ctx.statement tokens).2) := by
  rw [statement, statement, readLine_moved]
  rcases readLine ctx.scopes tokens with e | ⟨stmt, scopes⟩
  · rfl
  · cases tokens with
    | nil => rfl
    | cons first rest => cases stmt <;> rfl

theorem statements_moved (ctx : Context) (lines : List (List Token)) :
    ctx.statements (lines.map (List.map (.moved f))) =
      (Checked.moved f (List.map (.moved f)) (ctx.statements lines).1,
        (ctx.statements lines).2) := by
  induction lines generalizing ctx with
  | nil => rfl
  | cons line rest ih =>
    rw [List.map_cons, statements, statements, statement_moved]
    rcases ctx.statement line with ⟨e | stmt, next⟩
    · rfl
    · dsimp only [Checked.moved_ok]
      rw [ih]
      rcases next.statements rest with ⟨e | stmts, last⟩
      · rfl
      · cases stmt <;> rfl

theorem declare_moved (ctx : Context) (first : Token) (names rhs : List Token) :
    ctx.declare (first.moved f) (names.map (.moved f)) (rhs.map (.moved f)) =
      Checked.moved f id (ctx.declare first names rhs) := by
  rw [declare, declare, Located.map_val_moved, Located.map_val_moved]
  generalize Text.items (Text.unwords (names.map (·.val))) = items
  generalize items.find? (fun name => !(Alias.isName name && 2 ≤ name.length)) = bad
  cases bad with
  | some bad => rfl
  | none =>
    cases rhs with
    | nil => rfl
    | cons source rest =>
      simp only [List.map_cons]
      split
      · rfl
      · cases ctx.aliases.baseReg? (Text.unwords (source.val :: rest.map (·.val))) <;> rfl

theorem assign_moved (ctx : Context) (first : Token) (rhs : List Token) :
    ctx.assign (first.moved f) (rhs.map (.moved f)) =
      (Checked.moved f (List.map (.moved f)) (ctx.assign first rhs).1,
        (ctx.assign first rhs).2) := by
  rw [assign, assign, AliasTable.substitute_moved]
  rcases ctx.aliases.substitute rhs with e | tokens
  · rfl
  · dsimp only [Checked.moved_ok]
    rw [statement_moved]
    rcases ctx.statement tokens with ⟨e | _ | stmt, next⟩
    · rfl
    · rfl
    · dsimp only [Checked.moved_ok, Option.map_some, Located.val_moved]
      cases stmt.val <;> rfl

end Context

/-! ### Calls -/

namespace Call

/-- A call with the tokens of its arguments at other places. -/
def moved (c : Call) : Call := { c with args := c.args.map (List.map (.moved f)) }

theorem read?_moved (aliases : AliasTable) (lhs : List Token) (arrow : Token) (rhs : List Token) :
    read? aliases (lhs.map (.moved f)) (arrow.moved f) (rhs.map (.moved f)) =
      Checked.moved f (moved f) (read? aliases lhs arrow rhs) := by
  rcases lhs with _ | ⟨stack, _ | ⟨more, rest⟩⟩
  · rfl
  · simp only [read?, List.map_cons, List.map_nil, Located.val_moved, Located.map_val_moved,
      at?_moved]
    refine Checked.moved_bind fun ⟨raw, kept⟩ => Checked.moved_bind fun reg =>
      Checked.moved_bind fun ⟨label, args⟩ => ?_
    dsimp only [id]
    rw [Checked.moved_mapM fun arg => ?_]
    · exact Checked.moved_bind fun args => rfl
    · rw [← AliasTable.substitute_moved, List.map_map]
      rfl
  · rfl

theorem pushLines_moved (stack : Reg) (moved : Int) (args : List (List Token)) :
    pushLines stack moved (args.map (List.map (.moved f))) = pushLines stack moved args := by
  induction args generalizing moved with
  | nil => rfl
  | cons arg rest ih => simp only [List.map_cons, pushLines, Located.map_val_moved, ih]

theorem lines_moved (c : Call) : (c.moved f).lines = c.lines := by
  simp only [lines, Call.moved, pushLines_moved, List.length_map]
  rfl

end Call

/-! ### Expansion -/

theorem Context.splitAt?_moved (t : List Char) (tokens : List Token) :
    splitAt? t (tokens.map (.moved f)) = (splitAt? t tokens).map fun (before, found, behind) =>
      (before.map (.moved f), found.moved f, behind.map (.moved f)) := by
  induction tokens with
  | nil => rfl
  | cons tk rest ih =>
    rw [List.map_cons, splitAt?, splitAt?, Located.val_moved, ih]
    split
    · rfl
    · rw [Option.map_map, Option.map_map]
      rfl

namespace Context

theorem call_moved (ctx : Context) (lhs : List Token) (arrow : Token) (rhs : List Token) :
    ctx.call (lhs.map (.moved f)) (arrow.moved f) (rhs.map (.moved f)) =
      (Checked.moved f (List.map (.moved f)) (ctx.call lhs arrow rhs).1,
        (ctx.call lhs arrow rhs).2) := by
  have hlines (lines : List (List (List Char))) :
      lines.map (fun line => line.map (arrow.moved f).withVal) =
        (lines.map fun line => line.map arrow.withVal).map (List.map (.moved f)) := by
    simp [Function.comp_def]
  rw [call, call, Call.read?_moved]
  rcases Call.read? ctx.aliases lhs arrow rhs with e | c
  · rfl
  · dsimp only [Checked.moved_ok]
    rw [Call.lines_moved, at?_moved]
    rcases at? arrow c.lines with e | lines
    · rfl
    · dsimp only [Checked.moved_ok, id]
      rw [hlines, statements_moved]
      generalize (lines.map fun line => (line.map arrow.withVal : List Token)) = rows
      rcases ctx.statements rows with ⟨e | stmts, next⟩
      · rfl
      · simp only [Checked.moved_ok, Call.moved, List.length_map]

theorem plain_moved (ctx : Context) (tokens : List Token) :
    ctx.plain (tokens.map (.moved f)) =
      (Checked.moved f (List.map (.moved f)) (ctx.plain tokens).1, (ctx.plain tokens).2) := by
  rw [plain, plain, AliasTable.substitute_moved]
  rcases ctx.aliases.substitute tokens with e | tokens
  · rfl
  · dsimp only [Checked.moved_ok]
    rw [statement_moved]
    rcases ctx.statement tokens with ⟨e | _ | stmt, next⟩ <;> rfl

/-- **A moved line comes to the same statements, at the moved places.** -/
theorem expand_moved (ctx : Context) (tokens : List Token) :
    ctx.expand (tokens.map (.moved f)) =
      (Checked.moved f (List.map (.moved f)) (ctx.expand tokens).1, (ctx.expand tokens).2) := by
  unfold expand
  rw [splitAt?_moved]
  rcases splitAt? Call.arrow tokens with _ | ⟨lhs, arrow, rhs⟩
  · cases tokens with
    | nil => exact ctx.plain_moved f []
    | cons first rest =>
      have hplain := ctx.plain_moved f (first :: rest)
      have hsplit := splitAt?_moved f "as".toList (first :: rest)
      rw [List.map_cons] at hplain hsplit
      simp only [Option.map_none, List.map_cons, Located.val_moved, hplain, hsplit]
      split
      · rcases splitAt? "as".toList (first :: rest) with _ | ⟨names, _, rhs⟩
        · rcases rest with _ | ⟨second, rhs⟩
          · rfl
          · simp only [Option.map_none, List.map_cons, Located.val_moved, assign_moved]
            split <;> rfl
        · simp only [Option.map_some, declare_moved]
          cases ctx.declare first names rhs <;> rfl
      · rfl
  · exact ctx.call_moved f lhs arrow rhs

end Context

end Assembly

end WordMachine
