import WordMachine.Proofs.Ledgers
import WordMachine.Proofs.Lines

/-!
# Lines read by way of a ledger

Whoever reads a line asks four things of those who keep the blocks, and looks at what they keep in
no other way. So it does not matter to a line how blocks are kept. If a map from one way of keeping
them to another gives every call the same answer (`BlockKeeper.IsView`), lines come to the same
under both, and what is kept behind them corresponds again. There is one lemma for each reader, from
an immediate up to the lines of a text, and none of them knows what is kept.

The open blocks of a ledger are such a map, which is what `Ledger.serves` says of one call. So
everything that is shown about lines read with `Scopes` holds of those read with a `Ledger`.

## Main results

* `readLine_view`, `Context.expand_view`: a row, and a line, under a view
* `Ledger.isView_scopes`: the open blocks are a view of their ledger
* `ledger_readings`: the lines of a text come to the same with a ledger
-/

namespace WordMachine

namespace Assembly

/-! ### Views -/

/-- A map between two ways of keeping blocks that no call gives away. -/
structure BlockKeeper.IsView {σ τ : Type} [k : BlockKeeper σ] [l : BlockKeeper τ] (f : σ → τ) :
    Prop where
  empty : f BlockKeeper.empty = BlockKeeper.empty
  serve : ∀ s call, l.serve (f s) call = (k.serve s call).map id f

variable {σ τ : Type} [k : BlockKeeper σ] [l : BlockKeeper τ] {f : σ → τ}

namespace BlockKeeper.IsView

theorem push (h : IsView f) (s : σ) (name : List Char) :
    BlockKeeper.push (f s) name = (BlockKeeper.push s name).map id f := by
  obtain ⟨hlabel, hnext⟩ := Prod.mk.inj (h.serve s (.push name))
  exact Prod.ext (Except.ok.inj hlabel) hnext

theorem pop? (h : IsView f) (s : σ) (name : List Char) :
    BlockKeeper.pop? (f s) name = (BlockKeeper.pop? s name).map (Prod.map id f) := by
  have hserve := h.serve s (.pop name)
  rcases hs : BlockKeeper.pop? s name with e | ⟨label, next⟩ <;>
    rcases hf : BlockKeeper.pop? (f s) name with e' | ⟨label', next'⟩
  · rw [k.serve_pop_of_error hs, l.serve_pop_of_error hf] at hserve
    exact congrArg Except.error (Except.error.inj (Prod.mk.inj hserve).1)
  · rw [k.serve_pop_of_error hs, l.serve_pop_of_ok hf] at hserve
    cases (Prod.mk.inj hserve).1
  · rw [k.serve_pop_of_ok hs, l.serve_pop_of_error hf] at hserve
    cases (Prod.mk.inj hserve).1
  · rw [k.serve_pop_of_ok hs, l.serve_pop_of_ok hf] at hserve
    obtain ⟨hlabel, hnext⟩ := Prod.mk.inj hserve
    exact congrArg Except.ok (Prod.ext (Except.ok.inj hlabel) hnext)

theorem start? (h : IsView f) (s : σ) : BlockKeeper.start? (f s) = BlockKeeper.start? s :=
  (Prod.mk.inj (h.serve s .start)).1

theorem end? (h : IsView f) (s : σ) : BlockKeeper.end? (f s) = BlockKeeper.end? s :=
  (Prod.mk.inj (h.serve s .finish)).1

end BlockKeeper.IsView

/-! ### Rows -/

/-- Two readings that begin with the same step agree if they do whatever comes out of it. -/
theorem bind_eq_map {ε α β γ : Type} {x : Except ε α} {g : α → Except ε β} {g' : α → Except ε γ}
    {h : β → γ} (hg : ∀ a, g' a = (g a).map h) : x >>= g' = (x >>= g).map h := by
  cases x with
  | error e => rfl
  | ok a => exact hg a

variable (hf : BlockKeeper.IsView f)
include hf

theorem Imm.read?_view (value : List Char) (kind : RefKind) (s : σ) :
    Imm.read? value kind (f s) = Imm.read? value kind s := by
  rw [Imm.read?, Imm.read?, hf.start?, hf.end?]

theorem Part.read?_view (cls : Class) (s : σ) (t : List Char) :
    Part.read? cls (f s) t = Part.read? cls s t := by
  simp only [Part.read?, Imm.read?_view hf]

theorem Draft.read_view (cls : Class) (s : σ) (d : Draft) (tokens : List Token) :
    d.read cls (f s) tokens = d.read cls s tokens := by
  induction tokens generalizing d with
  | nil => rfl
  | cons tk rest ih =>
    rw [read, read, Part.read?_view hf]
    simp only [ih]

theorem readOperation_view (cls : Class) (s : σ) (mnemonic : Token) (rest : List Token) :
    readOperation cls (f s) mnemonic rest = readOperation cls s mnemonic rest := by
  rw [readOperation, readOperation, Draft.read_view hf]

/-- **A row is the same statement under a view**, and what is kept behind it is the view of what is
kept. -/
theorem readLine_view (s : σ) (tokens : List Token) :
    readLine (f s) tokens = (readLine s tokens).map (Prod.map id f) := by
  cases tokens with
  | nil => rfl
  | cons first rest =>
    simp only [readLine, hf.push, hf.pop?, readOperation_view hf]
    split
    · exact bind_eq_map fun _ => rfl
    split
    · refine bind_eq_map fun _ => ?_
      rcases BlockKeeper.pop? s blockName with e | ⟨label, next⟩ <;> rfl
    split
    · exact bind_eq_map fun _ => rfl
    split
    · exact bind_eq_map fun _ => rfl
    split
    · exact bind_eq_map fun _ => rfl
    split
    · exact bind_eq_map fun _ => bind_eq_map fun _ => rfl
    · rfl

/-! ### Lines -/

namespace Context

/-- A context with another way of keeping its blocks. -/
def mapScopes (f : σ → τ) (ctx : Context σ) : Context τ := ⟨ctx.aliases, f ctx.scopes⟩

omit hf in
theorem aliases_mapScopes (f : σ → τ) (ctx : Context σ) :
    (ctx.mapScopes f).aliases = ctx.aliases := rfl

omit hf in
/-- A declaration looks at no block. -/
theorem declare_mapScopes (f : σ → τ) (ctx : Context σ) (first : Token) (names rhs : List Token) :
    (ctx.mapScopes f).declare first names rhs = ctx.declare first names rhs := rfl

/-- What is kept in front of a text is seen as what is kept in front of it. -/
theorem mapScopes_new : ({} : Context σ).mapScopes f = {} := congrArg (Context.mk {}) hf.empty

theorem statement_view (ctx : Context σ) (tokens : List Token) :
    (ctx.mapScopes f).statement tokens = (ctx.statement tokens).map id (mapScopes f) := by
  rw [statement, statement, mapScopes, readLine_view hf]
  rcases readLine ctx.scopes tokens with e | ⟨stmt, scopes⟩ <;> rfl

theorem statements_view (ctx : Context σ) (rows : List (List Token)) :
    (ctx.mapScopes f).statements rows = (ctx.statements rows).map id (mapScopes f) := by
  induction rows generalizing ctx with
  | nil => rfl
  | cons row rest ih =>
    rw [statements, statements, statement_view hf]
    rcases ctx.statement row with ⟨e | stmt, next⟩
    · rfl
    · dsimp only [Prod.map, id]
      rw [ih]
      rcases next.statements rest with ⟨e | stmts, last⟩ <;> rfl

theorem assign_view (ctx : Context σ) (first : Token) (rhs : List Token) :
    (ctx.mapScopes f).assign first rhs = (ctx.assign first rhs).map id (mapScopes f) := by
  rw [assign, assign, aliases_mapScopes]
  rcases ctx.aliases.substitute rhs with e | tokens
  · rfl
  · dsimp only
    rw [statement_view hf]
    rcases ctx.statement tokens with ⟨e | _ | stmt, next⟩
    · rfl
    · rfl
    · dsimp only [Prod.map, id]
      cases stmt.val <;> rfl

theorem call_view (ctx : Context σ) (lhs : List Token) (arrow : Token) (rhs : List Token) :
    (ctx.mapScopes f).call lhs arrow rhs = (ctx.call lhs arrow rhs).map id (mapScopes f) := by
  rw [call, call, aliases_mapScopes]
  rcases Call.read? ctx.aliases lhs arrow rhs with e | c
  · rfl
  · dsimp only
    rcases at? arrow c.lines with e | lines
    · rfl
    · dsimp only
      rw [statements_view hf]
      generalize ctx.statements _ = answer
      rcases answer with ⟨e | stmts, next⟩ <;> rfl

theorem plain_view (ctx : Context σ) (tokens : List Token) :
    (ctx.mapScopes f).plain tokens = (ctx.plain tokens).map id (mapScopes f) := by
  rw [plain, plain, aliases_mapScopes]
  rcases ctx.aliases.substitute tokens with e | tokens
  · rfl
  · dsimp only
    rw [statement_view hf]
    rcases ctx.statement tokens with ⟨e | stmt, next⟩ <;> rfl

/-- **A line comes to the same statements under a view**, or it is refused with the same complaint.
-/
theorem expand_view (ctx : Context σ) (tokens : List Token) :
    (ctx.mapScopes f).expand tokens = (ctx.expand tokens).map id (mapScopes f) := by
  have hplain := ctx.plain_view hf
  unfold expand
  rcases splitAt? Call.arrow tokens with _ | ⟨lhs, arrow, rhs⟩
  · cases tokens with
    | nil => exact hplain []
    | cons first rest =>
      dsimp only
      split
      · rcases splitAt? "as".toList (first :: rest) with _ | ⟨names, mark, rhs⟩
        · cases rest with
          | nil => exact hplain [first]
          | cons second rhs =>
            dsimp only
            split
            · exact ctx.assign_view hf first rhs
            · exact hplain (first :: second :: rhs)
        · dsimp only
          rw [declare_mapScopes]
          rcases ctx.declare first names rhs with e | aliases <;> rfl
      · exact hplain (first :: rest)
  · exact ctx.call_view hf lhs arrow rhs

theorem expandText_view (ctx : Context σ) (line : Nat) (text : List Char) :
    (ctx.mapScopes f).expandText line text = (ctx.expandText line text).map id (mapScopes f) := by
  rw [expandText, expandText]
  rcases Token.scan line text with e | tokens
  · rfl
  · exact ctx.expand_view hf tokens

/-- Lines come to the same, one after another, and what they leave corresponds. -/
theorem readings_view (ctx : Context σ) (line : Nat) (texts : List (List Char)) :
    (ctx.mapScopes f).readings line texts = ctx.readings line texts ∧
      (ctx.mapScopes f).behind line texts = (ctx.behind line texts).mapScopes f := by
  induction texts generalizing ctx line with
  | nil => exact ⟨rfl, rfl⟩
  | cons text rest ih =>
    obtain ⟨hreadings, hbehind⟩ := ih (ctx.expandText line text).2 (line + 1)
    rw [readings, readings, behind, behind, expandText_view hf]
    exact ⟨congrArg _ hreadings, hbehind⟩

end Context

omit hf

/-! ### Ledgers -/

namespace Ledger

/-- **The open blocks are a view of their ledger.** -/
theorem isView_scopes : BlockKeeper.IsView scopes where
  empty := rfl
  serve l call := (l.serves call).eq_serve

end Ledger

/-- **A text comes to the same with a ledger.** Its lines come to the same statements and are
refused with the same complaints, each in its turn, whether blocks are kept in a ledger or on their
own. So do the tokens of any line, under any aliases and behind any blocks, and the tokens of any
row. What is kept behind them are the same aliases, and the open blocks of the ledger. -/
theorem ledger_readings (line : Nat) (texts : List (List Char)) :
    (({} : Context Ledger).readings line texts = ({} : Context).readings line texts ∧
      ({} : Context).behind line texts
        = (({} : Context Ledger).behind line texts).mapScopes Ledger.scopes) ∧
    (∀ (ctx : Context Ledger) tokens, (ctx.mapScopes Ledger.scopes).expand tokens
      = (ctx.expand tokens).map id (Context.mapScopes Ledger.scopes)) ∧
    ∀ (l : Ledger) tokens, readLine l.scopes tokens
      = (readLine l tokens).map (Prod.map id Ledger.scopes) := by
  obtain ⟨hreadings, hbehind⟩ := ({} : Context Ledger).readings_view Ledger.isView_scopes line texts
  rw [Context.mapScopes_new Ledger.isView_scopes] at hreadings hbehind
  exact ⟨⟨hreadings.symm, hbehind⟩, fun ctx => ctx.expand_view Ledger.isView_scopes,
    readLine_view Ledger.isView_scopes⟩

end Assembly

end WordMachine
