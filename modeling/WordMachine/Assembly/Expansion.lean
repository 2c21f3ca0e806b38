import WordMachine.Assembly.Call
import WordMachine.Assembly.Line

/-!
# Expansion

A line is read in the context of the aliases and the open blocks that the lines before it have left.
Four forms of line are more than one statement on their own: a call, the declaration of an alias,
an assignment, and everything else with the aliases in it replaced. Each comes to a list of
statements and a new context; a line that is refused has a context behind it as well.

## Main statements

* `Context.expand_nil`: an empty line changes nothing
-/

namespace WordMachine

namespace Assembly

/-- What the lines so far have left for the next one. -/
structure Context (σ : Type := Scopes) [BlockKeeper σ] where
  aliases : AliasTable := {}
  scopes : σ := BlockKeeper.empty
  deriving DecidableEq, Repr, Inhabited

namespace Context

variable {σ : Type} [BlockKeeper σ]

/-- The statement on a line without aliases. If it is an operation, tracked aliases follow it. -/
def statement (ctx : Context σ) (tokens : List Token) :
    Checked (Option (Located Statement)) × Context σ :=
  match readLine ctx.scopes tokens with
  | .error e => (.error e, ctx)
  | .ok (stmt, scopes) =>
    let aliases := match stmt with
      | some (.op op) => ctx.aliases.track op
      | _ => ctx.aliases
    let located := match tokens with
      | [] => none
      | first :: _ => stmt.map first.withVal
    (.ok located, ⟨aliases, scopes⟩)

/-- The statements on lines without aliases, up to the first line that is refused. -/
def statements (ctx : Context σ) :
    List (List Token) → Checked (List (Located Statement)) × Context σ
  | [] => (.ok [], ctx)
  | line :: rest =>
    match ctx.statement line with
    | (.error e, ctx) => (.error e, ctx)
    | (.ok stmt, ctx) =>
      match ctx.statements rest with
      | (.error e, ctx) => (.error e, ctx)
      | (.ok stmts, ctx) => (.ok (stmt.toList ++ stmts), ctx)

/-- The aliases behind a declaration of `names` for an operand. -/
def declare (ctx : Context σ) (first : Token) (names rhs : List Token) : Checked AliasTable := do
  let joined := Text.unwords (names.map (·.val))
  let names := Text.items joined
  match names.find? fun name => !(Alias.isName name && 2 ≤ name.length) with
    | some bad => .error (first.withVal (.malformed bad .badAliasName))
    | none => .ok ()
  let operand := Text.unwords (rhs.map (·.val))
  match rhs with
  | [] => .error (first.withVal (.malformed joined .missingAliased))
  | source :: _ =>
    match names with
    | [name] => return ctx.aliases.define name operand
    | names =>
      match ctx.aliases.baseReg? operand with
      | .ok reg => return ctx.aliases.defineIndexed reg 0 names
      | .error _ => .error (source.withVal (.invalidOperand operand))

/-- The statement of an assignment, whose destination is given a name. -/
def assign (ctx : Context σ) (first : Token) (rhs : List Token) :
    Checked (List (Located Statement)) × Context σ :=
  match ctx.aliases.substitute rhs with
  | .error e => (.error e, ctx)
  | .ok tokens =>
    match ctx.statement tokens with
    | (.error e, ctx) => (.error e, ctx)
    | (.ok none, ctx) => (.error (first.withVal (.malformed first.val .missingAssigned)), ctx)
    | (.ok (some stmt), ctx) =>
      match stmt.val with
      | .op op =>
        let aliases := ctx.aliases.bind first.val op.dst (op.dstImm.num?.getD 0)
        (.ok [stmt], { ctx with aliases := aliases })
      | _ => (.error (first.withVal (.malformed first.val .badAssigned)), ctx)

/-- The statements of a call. Behind it the callee has taken the arguments and the return address
off the stack, and tracked aliases count on that. -/
def call (ctx : Context σ) (lhs : List Token) (arrow : Token) (rhs : List Token) :
    Checked (List (Located Statement)) × Context σ :=
  match Call.read? ctx.aliases lhs arrow rhs with
  | .error e => (.error e, ctx)
  | .ok c =>
    match at? arrow c.lines with
    | .error e => (.error e, ctx)
    | .ok lines =>
      match ctx.statements (lines.map fun line => line.map arrow.withVal) with
      | (.error e, ctx) => (.error e, ctx)
      | (.ok stmts, ctx) =>
        let aliases := ctx.aliases.shift c.stack (-(c.args.length + 1 : Int))
        (.ok stmts, { ctx with aliases := aliases })

/-- The tokens before, at and behind the first one with a given text. -/
def splitAt? (t : List Char) : List Token → Option (List Token × Token × List Token)
  | [] => none
  | tk :: rest =>
    if tk.val = t then some ([], tk, rest)
    else (splitAt? t rest).map fun (before, found, behind) => (tk :: before, found, behind)

/-- The statement on a line of its own, once the aliases in it have been replaced. -/
def plain (ctx : Context σ) (tokens : List Token) :
    Checked (List (Located Statement)) × Context σ :=
  match ctx.aliases.substitute tokens with
  | .error e => (.error e, ctx)
  | .ok tokens =>
    match ctx.statement tokens with
    | (.error e, ctx) => (.error e, ctx)
    | (.ok stmt, ctx) => (.ok stmt.toList, ctx)

/-- The statements that a line comes to, and the context behind it. -/
def expand (ctx : Context σ) (tokens : List Token) :
    Checked (List (Located Statement)) × Context σ :=
  match splitAt? Call.arrow tokens with
  | some (lhs, arrow, rhs) => ctx.call lhs arrow rhs
  | none =>
    match tokens with
    | [] => ctx.plain []
    | first :: rest =>
      if Alias.isName first.val then
        match splitAt? "as".toList tokens with
        | some (names, _, rhs) =>
          match ctx.declare first names rhs with
          | .error e => (.error e, ctx)
          | .ok aliases => (.ok [], { ctx with aliases := aliases })
        | none =>
          match rest with
          | second :: rhs =>
            if second.val = "=".toList then ctx.assign first rhs else ctx.plain tokens
          | [] => ctx.plain tokens
      else ctx.plain tokens

theorem expand_nil (ctx : Context σ) : ctx.expand [] = (.ok [], ctx) := rfl

end Context

end Assembly

end WordMachine
