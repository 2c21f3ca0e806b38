import WordMachine.Proofs.Addresses
import WordMachine.Proofs.Relocation

/-!
# What a source is spelled with

Of a source, only the texts of its tokens count, and which of them stand on one line. Comments,
white space and empty lines, and with them the numbers of lines and columns, are for the reader and
for diagnostics.

The tokens of a source (`Token.ofSource`) are reduced to `Token.spelling`, which has no places in it
and no empty lines. `Context.comesTo` computes from a spelling alone what the first pass makes of a
source: it expands every line as if it stood nowhere. As a moved line comes to the same statements
(`Context.expand_moved`) and an empty one to none, this is what the source itself comes to
(`Context.expandRows_eq`), and the program is realized by nothing else.

## Main results

* `Context.expandRows_eq`: what lines come to depends on their spelling
* `assemble?_iff_of_spelling_eq`: sources of one spelling are the same program
-/

namespace WordMachine

namespace Assembly

namespace Token

/-- The tokens of lines of text, the first of them under the given number. -/
def ofLines (line : Nat) : List (List Char) → Checked (List (List Token))
  | [] => .ok []
  | text :: rest => do
    let tokens ← scan line text
    let rows ← ofLines (line + 1) rest
    return tokens :: rows

/-- The tokens of a source, line by line. -/
def ofSource (source : List Char) : Checked (List (List Token)) := ofLines 1 (Text.lines source)

/-- The texts of the tokens, on the lines that have any. -/
def spelling (rows : List (List Token)) : List (List (List Char)) :=
  (rows.map fun row => row.map (·.val)).filter (!·.isEmpty)

theorem spelling_nil_cons (rows : List (List Token)) : spelling ([] :: rows) = spelling rows := rfl

theorem spelling_cons {row : List Token} (h : row ≠ []) (rows : List (List Token)) :
    spelling (row :: rows) = row.map (·.val) :: spelling rows := by
  rw [spelling, List.map_cons, List.filter_cons_of_pos]
  · rfl
  · simp [h]

/-- Tokens that stand nowhere. -/
def ofTexts (texts : List (List Char)) : List Token := texts.map (Located.mk default)

theorem ofTexts_map_val (tokens : List Token) :
    ofTexts (tokens.map (·.val)) = tokens.map (.moved fun _ => default) := by
  rw [ofTexts, List.map_map]
  rfl

end Token

namespace Context

/-- What the tokens of lines come to, one line after another. A line that is refused is the end of
it. -/
def expandRows (ctx : Context) : List (List Token) → Checked (List (List (Located Statement)))
  | [] => .ok []
  | row :: rest =>
    match ctx.expand row with
    | (.error e, _) => .error e
    | (.ok stmts, next) => (next.expandRows rest).map (stmts :: ·)

/-- Lines come to what their tokens come to. -/
theorem expandLines_eq {ctx : Context} {line : Nat} {texts : List (List Char)}
    {rows : List (List Token)} (h : Token.ofLines line texts = .ok rows) :
    ctx.expandLines line texts = ctx.expandRows rows := by
  induction texts generalizing ctx line rows with
  | nil =>
    cases h
    rfl
  | cons text rest ih =>
    simp only [Token.ofLines, bind_eq_ok_iff, pure_eq_ok_iff] at h
    obtain ⟨tokens, htokens, rows, hrows, rfl⟩ := h
    rw [expandLines, expandRows, expandText, htokens]
    dsimp only
    rcases ctx.expand tokens with ⟨e | stmts, next⟩
    · rfl
    · dsimp only
      rw [ih hrows]

/-- The statements that spelled lines come to, and on how many of the lines there is an operation.
-/
def comesTo (ctx : Context) : List (List (List Char)) → Option (List Statement × Nat)
  | [] => some ([], 0)
  | texts :: rest =>
    match ctx.expand (Token.ofTexts texts) with
    | (.error _, _) => none
    | (.ok stmts, next) =>
      (next.comesTo rest).map fun (ss, n) =>
        (stmts.map (·.val) ++ ss, if isCode stmts then n + 1 else n)

theorem isCode_moved (f : Loc → Loc) (stmts : List (Located Statement)) :
    isCode (stmts.map (.moved f)) = isCode stmts :=
  List.any_map

/-- **What lines come to depends on their spelling.** -/
theorem expandRows_eq (ctx : Context) (rows : List (List Token)) :
    (ctx.expandRows rows).toOption.map
        (fun groups => (Statement.ofLines groups, groups.countP isCode)) =
      ctx.comesTo (Token.spelling rows) := by
  induction rows generalizing ctx with
  | nil => rfl
  | cons row rest ih =>
    rw [expandRows]
    by_cases hrow : row = []
    · subst hrow
      rw [expand_nil, Token.spelling_nil_cons, ← ih ctx]
      dsimp only
      cases ctx.expandRows rest <;> rfl
    · rw [Token.spelling_cons hrow, comesTo, Token.ofTexts_map_val, expand_moved]
      rcases ctx.expand row with ⟨e | stmts, next⟩
      · rfl
      · simp only [Checked.moved_ok, Located.map_val_moved, isCode_moved]
        rw [← ih next]
        cases next.expandRows rest with
        | error e => rfl
        | ok groups =>
          simp only [Except.map, Except.toOption, Option.map_some, Statement.ofLines_cons,
            List.countP_cons]
          split <;> rfl

end Context

/-- A source is assembled to the program that its spelling is realized by. -/
theorem assemble?_iff_comesTo {source : List Char} {rows : List (List Token)} {p : Program}
    (h : Token.ofSource source = .ok rows) :
    assemble? source = .ok p ↔
      ∃ ss, Context.comesTo {} (Token.spelling rows) = some (ss, p.codeLines) ∧ p.Realizes ss := by
  rw [assemble?_eq_ok_iff, Context.expandLines_eq h, ← Context.expandRows_eq]
  constructor
  · rintro ⟨groups, hgroups, hp, hcount⟩
    exact ⟨_, by rw [hgroups, hcount]; rfl, hp⟩
  · rintro ⟨ss, hss, hp⟩
    obtain ⟨groups, hgroups, heq⟩ := Option.map_eq_some_iff.mp hss
    obtain ⟨rfl, hcount⟩ := Prod.mk.inj heq
    exact ⟨groups, toOption_eq_some_iff.mp hgroups, hp, hcount.symm⟩

/-- **Only the texts of the tokens count.** If the tokens of two sources have the same texts, line
by line and without empty lines, one of the sources is assembled to a program exactly if the other
is assembled to it. -/
theorem assemble?_iff_of_spelling_eq {a b : List Char} {rows rows' : List (List Token)}
    (ha : Token.ofSource a = .ok rows) (hb : Token.ofSource b = .ok rows')
    (h : Token.spelling rows = Token.spelling rows') (p : Program) :
    assemble? a = .ok p ↔ assemble? b = .ok p := by
  rw [assemble?_iff_comesTo ha, assemble?_iff_comesTo hb, h]

/-- A source that is spelled in a given way. -/
theorem exists_rows_of_spelling {source : List Char} {texts : List (List (List Char))}
    (h : (Token.ofSource source).toOption.map Token.spelling = some texts) :
    ∃ rows, Token.ofSource source = .ok rows ∧ Token.spelling rows = texts := by
  obtain ⟨rows, hrows, hspelling⟩ := Option.map_eq_some_iff.mp h
  exact ⟨rows, toOption_eq_some_iff.mp hrows, hspelling⟩

/-- A source with comments and an empty line is the program of its bare tokens. -/
theorem assemble?_iff_of_spelling_eq_bare :
    ∃ rows rows' p,
      Token.ofSource "start:\ncopy 0.reg start.disp 1.reg".toList = .ok rows ∧
      Token.ofSource "start: # here\n\n  copy /from/ 0.reg\tstart.disp 1.reg".toList = .ok rows' ∧
      Token.spelling rows = Token.spelling rows' ∧ p.words = [0x7400] ∧
      assemble? "start:\ncopy 0.reg start.disp 1.reg".toList = .ok p ∧
      assemble? "start: # here\n\n  copy /from/ 0.reg\tstart.disp 1.reg".toList = .ok p := by
  obtain ⟨p, hp, hwords⟩ := @exists_program_of_words
    "start:\ncopy 0.reg start.disp 1.reg".toList [0x7400] (by decide +kernel)
  obtain ⟨rows, hrows, hspelling⟩ := @exists_rows_of_spelling
    "start:\ncopy 0.reg start.disp 1.reg".toList
    [["start:".toList], ["copy".toList, "0.reg".toList, "start.disp".toList, "1.reg".toList]]
    (by decide +kernel)
  obtain ⟨rows', hrows', hspelling'⟩ := @exists_rows_of_spelling
    "start: # here\n\n  copy /from/ 0.reg\tstart.disp 1.reg".toList
    [["start:".toList], ["copy".toList, "0.reg".toList, "start.disp".toList, "1.reg".toList]]
    (by decide +kernel)
  have heq := hspelling.trans hspelling'.symm
  exact ⟨rows, rows', p, hrows, hrows', heq, hwords, hp,
    (assemble?_iff_of_spelling_eq hrows hrows' heq p).mp hp⟩

end Assembly

end WordMachine
