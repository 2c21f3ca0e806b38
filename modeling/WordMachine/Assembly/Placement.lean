import WordMachine.Assembly.Expansion
import WordMachine.Assembly.Token

/-!
# Placement

Every statement is given the address of its first word, which is the number of words before it. A
line that is refused is put on record and passed over, so that all broken lines come to light
together. Only a program that outgrows the addresses is given up at that point.

## Main statements

* `Placement.addStatements_size`: what is placed ends where the next statement goes
-/

namespace WordMachine

namespace Assembly

/-- The number of addresses. -/
def addressSpace : Nat := 65536

/-- A statement at its address, with the line it comes from. -/
structure Placed where
  line : Nat
  source : List Char
  address : Nat
  stmt : Located Statement
  deriving DecidableEq, Repr, Inhabited

namespace Placed

/-- The failure of a placed statement. -/
def failure (p : Placed) (e : LineError) : Failure := ⟨p.line, p.source, p.stmt.withVal e⟩

end Placed

/-- A program as far as it has been placed. -/
structure Placement where
  ctx : Context := {}
  /-- The statements, latest first. -/
  units : List Placed := []
  /-- The address of the next statement. -/
  next : Nat := 0
  /-- The number of lines with an operation on them. -/
  codeLines : Nat := 0
  /-- The broken lines, latest first. -/
  failures : List Failure := []
  deriving DecidableEq, Repr, Inhabited

namespace Placement

/-- Places the statements of a line. The flag tells whether there was room for all of them. -/
def addStatements (p : Placement) (line : Nat) (source : List Char) :
    List (Located Statement) → Placement × Bool
  | [] => (p, true)
  | stmt :: rest =>
    if addressSpace < p.next + stmt.val.size then
      let failure : Failure :=
        ⟨line, source, stmt.withVal (.malformed (Text.trim source) .tooLong)⟩
      ({ p with failures := failure :: p.failures }, false)
    else
      addStatements { p with
        units := ⟨line, source, p.next, stmt⟩ :: p.units
        next := p.next + stmt.val.size } line source rest

/-- Places a line. The flag tells whether to go on. -/
def addLine (p : Placement) (line : Nat) (source : List Char) : Placement × Bool :=
  match Token.scan line source with
  | .error e => ({ p with failures := ⟨line, source, e⟩ :: p.failures }, true)
  | .ok tokens =>
    match p.ctx.expand tokens with
    | (.error e, ctx) => ({ p with ctx := ctx, failures := ⟨line, source, e⟩ :: p.failures }, true)
    | (.ok stmts, ctx) =>
      let isCode := stmts.any fun stmt => stmt.val.isOp
      let codeLines := if isCode then p.codeLines + 1 else p.codeLines
      addStatements { p with ctx := ctx, codeLines := codeLines } line source stmts

/-- Places lines, the first of them under the given number. -/
def addLines (p : Placement) (line : Nat) : List (List Char) → Placement
  | [] => p
  | source :: rest =>
    match p.addLine line source with
    | (p, true) => addLines p (line + 1) rest
    | (p, false) => p

/-- Places a whole source. -/
def ofSource (source : List Char) : Placement := addLines {} 1 (Text.lines source)

theorem addStatements_size {p q : Placement} {line : Nat} {source : List Char}
    {stmts : List (Located Statement)} (h : p.addStatements line source stmts = (q, true)) :
    q.next = p.next + stmts.foldr (fun stmt n => stmt.val.size + n) 0 := by
  induction stmts generalizing p with
  | nil =>
    cases h
    simp
  | cons stmt rest ih =>
    rw [addStatements] at h
    split at h
    · cases h
    · rw [ih h]
      dsimp only [List.foldr_cons]
      omega

end Placement

end Assembly

end WordMachine
