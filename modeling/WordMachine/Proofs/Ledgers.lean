import WordMachine.Assembly.Ledger
import WordMachine.Proofs.Brackets

/-!
# What is answered about blocks

Blocks can be kept in two ways. `Scopes` forgets a block when it is closed; a `Ledger` marks it and
goes on. What either may be asked is a `BlockCall`, and `Scopes.Serves` says what is to be answered:
it is about the open blocks alone, and nothing is searched for in it, since a block that is closed
stands between those inside of it and those around it.

Both ways come to that relation. `Scopes` is what it is about, and for a ledger `Ledger.scopes`
reads the open blocks off from the end. A call that is refused has no effect, so calls may follow
each other in any order.

## Main definitions

* `BlockKeeper.serve`, `BlockKeeper.run`: how those who keep blocks serve calls
* `Scopes.Serves`, `Scopes.Runs`: what one call is answered, and what several are
* `Ledger.scopes`: the open blocks of a ledger
* `Ledger.IsNumbered`: every block has the number of its place

## Main results

* `Scopes.Runs.eq_run`: no calls have two answers
* `Scopes.Runs.numbered`: the numbers of the labels that are issued
* `Ledger.serves`: a ledger serves a call as its open blocks do
* `Ledger.IsNumbered.run`: the numbers of a ledger's blocks, behind any calls
* `ledger_runs`: any calls, from the first block on
-/

namespace WordMachine

namespace Assembly

/-! ### Calls and answers -/

/-- What can be asked of those who keep the blocks. -/
inductive BlockCall where
  /-- To open a block of a name. -/
  | push (name : List Char)
  /-- To close the innermost block of a name. -/
  | pop (name : List Char)
  /-- The start of the innermost block. -/
  | start
  /-- The end of the innermost block. -/
  | finish
  deriving DecidableEq, Repr

namespace BlockCall

/-- The label that a call issues, if it is answered as given. A question about a block issues
none: it is told of a label that was or will be issued. -/
def issued? : BlockCall → Except LineError Label → Option Label
  | push _, .ok label => some label
  | pop _, .ok label => some label
  | _, _ => none

/-- The labels that several calls issue, in order. -/
def issued : List BlockCall → List (Except LineError Label) → List Label
  | call :: calls, answer :: answers => (call.issued? answer).toList ++ issued calls answers
  | _, _ => []

end BlockCall

namespace BlockKeeper

variable {σ : Type} (k : BlockKeeper σ)

/-- What is answered to a call, and what is kept behind it. -/
def serve (s : σ) : BlockCall → Except LineError Label × σ
  | .push name => (.ok (k.push s name).1, (k.push s name).2)
  | .pop name =>
    match k.pop? s name with
    | .ok (label, next) => (.ok label, next)
    | .error e => (.error e, s)
  | .start => (k.start? s, s)
  | .finish => (k.end? s, s)

/-- What is answered to several calls, and what is kept behind them. -/
def run (s : σ) : List BlockCall → List (Except LineError Label) × σ
  | [] => ([], s)
  | call :: calls =>
    let (answer, next) := k.serve s call
    let (answers, last) := run next calls
    (answer :: answers, last)

theorem serve_pop_of_ok {s next : σ} {name : List Char} {label : Label}
    (h : k.pop? s name = .ok (label, next)) : k.serve s (.pop name) = (.ok label, next) := by
  rw [serve, h]

theorem serve_pop_of_error {s : σ} {name : List Char} {e : LineError}
    (h : k.pop? s name = .error e) : k.serve s (.pop name) = (.error e, s) := by
  rw [serve, h]

end BlockKeeper

/-! ### What is answered -/

namespace Scopes

variable {s t u : Scopes} {call : BlockCall} {answer : Except LineError Label}

/-- What a call is answered, given the blocks that are open, and which are open behind it. -/
inductive Serves : Scopes → BlockCall → Except LineError Label → Scopes → Prop
  /-- A new block has the next number. -/
  | push (s : Scopes) (name : List Char) :
    Serves s (.push name) (.ok (.blockStart (s.count + 1)))
      ⟨s.count + 1, ⟨s.count + 1, name⟩ :: s.pending⟩
  /-- A block is closed wherever it stands, if none of its name is open inside of it. -/
  | pop {s : Scopes} {inner outer : List Scope} {i : Nat} {name : List Char}
    (hpending : s.pending = inner ++ ⟨i, name⟩ :: outer)
    (hinner : ∀ scope ∈ inner, scope.name ≠ name) :
    Serves s (.pop name) (.ok (.blockEnd i)) ⟨s.count, inner ++ outer⟩
  /-- No block of the name is open. -/
  | unbalanced {s : Scopes} {name : List Char} (h : ∀ scope ∈ s.pending, scope.name ≠ name) :
    Serves s (.pop name) (.error .unbalancedBlock) s
  | start {s : Scopes} {scope : Scope} {outer : List Scope} (h : s.pending = scope :: outer) :
    Serves s .start (.ok (.blockStart scope.id)) s
  | finish {s : Scopes} {scope : Scope} {outer : List Scope} (h : s.pending = scope :: outer) :
    Serves s .finish (.ok (.blockEnd scope.id)) s
  /-- There is no innermost block. -/
  | noStart {s : Scopes} (h : s.pending = []) : Serves s .start (.error .unbalancedBlock) s
  | noEnd {s : Scopes} (h : s.pending = []) : Serves s .finish (.error .unbalancedBlock) s

/-- What several calls are answered, one after the other. -/
inductive Runs : Scopes → List BlockCall → List (Except LineError Label) → Scopes → Prop
  | nil (s : Scopes) : Runs s [] [] s
  | cons {s t u : Scopes} {call : BlockCall} {calls : List BlockCall}
    {answer : Except LineError Label} {answers : List (Except LineError Label)}
    (hcall : Serves s call answer t) (hcalls : Runs t calls answers u) :
    Runs s (call :: calls) (answer :: answers) u

/-- What a search finds is the first of its name, and what is left of the list are the others. -/
theorem pop?_eq_of_split {inner outer : List Scope} {i : Nat} {name : List Char}
    (hpending : s.pending = inner ++ ⟨i, name⟩ :: outer)
    (hinner : ∀ scope ∈ inner, scope.name ≠ name) :
    s.pop? name = .ok (.blockEnd i, ⟨s.count, inner ++ outer⟩) := by
  have hfirst : (⟨i, name⟩ : Scope).name == name := beq_self_eq_true name
  have hnone : ∀ scope ∈ inner, ¬ (scope.name == name) = true := by
    intro scope hmem heq
    exact hinner scope hmem (beq_iff_eq.mp heq)
  rw [pop?, hpending, List.find?_append, List.find?_eq_none.mpr hnone, Option.none_or,
    List.eraseP_append_right _ hnone]
  simp only [List.find?_cons, List.eraseP_cons, hfirst, cond_true]

theorem pop?_eq_of_forall {name : List Char} (h : ∀ scope ∈ s.pending, scope.name ≠ name) :
    s.pop? name = .error .unbalancedBlock := by
  rw [pop?, List.find?_eq_none.mpr fun scope hmem heq => h scope hmem (beq_iff_eq.mp heq)]

/-- There is one way to serve a call, and it is how open blocks are kept. -/
theorem Serves.eq_serve (h : Serves s call answer t) : keeper.serve s call = (answer, t) := by
  cases h with
  | push name => rfl
  | pop hpending hinner => exact keeper.serve_pop_of_ok (pop?_eq_of_split hpending hinner)
  | unbalanced h => exact keeper.serve_pop_of_error (pop?_eq_of_forall h)
  | start h => simp only [BlockKeeper.serve, keeper_start?, start?, h]
  | finish h => simp only [BlockKeeper.serve, keeper_end?, end?, h]
  | noStart h => simp only [BlockKeeper.serve, keeper_start?, start?, h]
  | noEnd h => simp only [BlockKeeper.serve, keeper_end?, end?, h]

theorem Runs.eq_run {calls : List BlockCall} {answers : List (Except LineError Label)}
    (h : Runs s calls answers u) : keeper.run s calls = (answers, u) := by
  induction h with
  | nil s => rfl
  | cons hcall hcalls ih => rw [BlockKeeper.run, hcall.eq_serve]; dsimp only; rw [ih]

/-! ### What is issued -/

/-- A label that is issued is none of those issued before. -/
theorem Serves.numbered {ls : List Label} (h : Serves s call answer t)
    (hls : Issued.Numbered ls s) :
    Issued.Numbered (ls ++ (call.issued? answer).toList) t := by
  have hnone : Issued.Numbered (ls ++ []) s := (List.append_nil ls).symm ▸ hls
  cases h with
  | push name => exact hls.start name
  | @pop inner outer i name hpending hinner =>
    refine hls.finish ?_ rfl
    rw [ids, ids, hpending, List.map_append, List.map_append]
    exact List.perm_middle
  | _ => exact hnone

theorem Runs.numbered {calls : List BlockCall} {answers : List (Except LineError Label)}
    (h : Runs s calls answers u) {ls : List Label} (hls : Issued.Numbered ls s) :
    Issued.Numbered (ls ++ BlockCall.issued calls answers) u := by
  induction h generalizing ls with
  | nil s => exact (List.append_nil ls).symm ▸ hls
  | cons hcall hcalls ih =>
    rw [BlockCall.issued, ← List.append_assoc]
    exact ih (hcall.numbered hls)

/-- What is issued are the ends of blocks, and no names of the user's. -/
theorem Runs.isProper_of_mem {calls : List BlockCall} {answers : List (Except LineError Label)}
    (h : Runs s calls answers u) : ∀ l ∈ BlockCall.issued calls answers, l.isProper = true := by
  induction h with
  | nil s => exact fun l hl => absurd hl List.not_mem_nil
  | cons hcall hcalls ih =>
    intro l hl
    rcases List.mem_append.mp hl with hl | hl
    · cases hcall with
      | push name | pop hpending hinner => rw [List.mem_singleton.mp hl]; rfl
      | _ => cases hl
    · exact ih l hl

end Scopes

/-! ### Ledgers -/

namespace Ledger

variable (l : Ledger)

/-- The open blocks among blocks, innermost first. -/
def pending (bs : List Block) : List Scope :=
  (bs.filter Block.isOpen).reverse.map fun b => ⟨b.id, b.name⟩

/-- How many blocks a ledger has, and which of them are open. -/
def scopes : Scopes := ⟨l.blocks.length, pending l.blocks⟩

/-- What is pending around a block in a list, and the block itself if it is open. -/
theorem pending_split (front back : List Block) (b : Block) :
    pending (front ++ b :: back) =
      pending back ++ (if b.isOpen then [⟨b.id, b.name⟩] else []) ++ pending front := by
  rw [pending, List.filter_append, List.filter_cons]
  split <;> simp [pending]

/-- If no block answers to a name, none that is open has it. -/
theorem ne_of_mem_pending {name : List Char} {bs : List Block}
    (h : ∀ b ∈ bs, b.answersTo name = false) {scope : Scope} (hscope : scope ∈ pending bs) :
    scope.name ≠ name := by
  obtain ⟨b, hb, rfl⟩ := List.mem_map.mp hscope
  obtain ⟨hmem, hopen⟩ := List.mem_filter.mp (List.mem_reverse.mp hb)
  have hanswers := h b hmem
  rw [Block.answersTo, hopen, Bool.true_and] at hanswers
  exact beq_eq_false_iff_ne.mp hanswers

/-- The innermost open block of a ledger is the first that is pending. -/
theorem innermost?_eq : l.innermost? =
    match l.scopes.pending with
    | [] => .error .unbalancedBlock
    | scope :: _ => .ok scope.id := by
  rw [innermost?, scopes, pending, ← List.filter_reverse, ← List.head?_filter]
  cases l.blocks.reverse.filter Block.isOpen <;> rfl

variable {l} {name : List Char}

/-- An end without a block is refused. -/
theorem serve_pop_of_none (h : Block.closeLast? (Block.answersTo name) l.blocks = none) :
    keeper.serve l (.pop name) = (.error .unbalancedBlock, l) := by
  have hpop : l.pop? name = .error .unbalancedBlock := by rw [pop?, h]
  exact keeper.serve_pop_of_error hpop

/-- An end with a block has the number of that. -/
theorem serve_pop_of_some {b : Block} {blocks : List Block}
    (h : Block.closeLast? (Block.answersTo name) l.blocks = some (b, blocks)) :
    keeper.serve l (.pop name) = (.ok (.blockEnd b.id), ⟨blocks⟩) := by
  have hpop : l.pop? name = .ok (.blockEnd b.id, ⟨blocks⟩) := by rw [pop?, h]
  exact keeper.serve_pop_of_ok hpop

variable (l)

/-- A ledger serves a call as the open blocks in it do. -/
theorem serves (call : BlockCall) :
    Scopes.Serves l.scopes call (keeper.serve l call).1 (keeper.serve l call).2.scopes := by
  cases call with
  | push name =>
    have hnext : (l.push name).2.scopes = (l.scopes.push name).2 := by
      rw [push, scopes, pending_split, List.length_append]
      rfl
    show Scopes.Serves l.scopes (.push name) (.ok (.blockStart (l.scopes.count + 1)))
      (l.push name).2.scopes
    rw [hnext]
    exact .push l.scopes name
  | pop name =>
    rcases hclose : Block.closeLast? (Block.answersTo name) l.blocks with _ | ⟨b, blocks⟩
    · rw [serve_pop_of_none hclose]
      exact .unbalanced fun scope => ne_of_mem_pending (Block.closeLast?_eq_none_iff.mp hclose)
    · obtain ⟨front, back, hsplit, rfl, hb, hback⟩ := Block.exists_of_closeLast? hclose
      obtain ⟨hopen, rfl⟩ : b.isOpen = true ∧ b.name = name := by
        rwa [Block.answersTo, Bool.and_eq_true, beq_iff_eq] at hb
      -- the block is pending behind those of `back`, none of which has its name
      have hbefore : l.scopes.pending = pending back ++ ⟨b.id, b.name⟩ :: pending front := by
        rw [scopes, hsplit, pending_split, hopen]
        simp
      have hafter : scopes ⟨front ++ b.close :: back⟩ =
          ⟨l.scopes.count, pending back ++ pending front⟩ := by
        rw [scopes, pending_split, scopes, hsplit]
        simp [Block.close]
      rw [serve_pop_of_some hclose, hafter]
      exact .pop hbefore fun scope => ne_of_mem_pending hback
  | start =>
    show Scopes.Serves l.scopes .start l.start? l.scopes
    rw [start?, innermost?_eq]
    rcases hpending : l.scopes.pending with _ | ⟨scope, outer⟩
    · exact .noStart hpending
    · exact .start hpending
  | finish =>
    show Scopes.Serves l.scopes .finish l.end? l.scopes
    rw [end?, innermost?_eq]
    rcases hpending : l.scopes.pending with _ | ⟨scope, outer⟩
    · exact .noEnd hpending
    · exact .finish hpending

/-- A ledger answers any calls as the open blocks in it do. -/
theorem runs (calls : List BlockCall) :
    Scopes.Runs l.scopes calls (keeper.run l calls).1 (keeper.run l calls).2.scopes := by
  induction calls generalizing l with
  | nil => exact .nil l.scopes
  | cons call calls ih => exact .cons (l.serves call) (ih _)

variable {l}

/-- The number of every block is its place. -/
def IsNumbered (l : Ledger) : Prop := l.blocks.map Block.id = List.range' 1 l.blocks.length

/-- No call changes the number of a block, and a new one has the next. -/
theorem IsNumbered.serve (h : l.IsNumbered) (call : BlockCall) :
    (keeper.serve l call).2.IsNumbered := by
  cases call with
  | push name =>
    show (l.blocks ++ [_]).map Block.id = List.range' 1 (l.blocks ++ [_]).length
    rw [List.map_append, h, List.length_append, List.length_singleton, List.range'_concat,
      Nat.add_comm, Nat.one_mul]
    rfl
  | pop name =>
    rcases hclose : Block.closeLast? (Block.answersTo name) l.blocks with _ | ⟨b, blocks⟩
    · rw [serve_pop_of_none hclose]
      exact h
    · rw [serve_pop_of_some hclose]
      obtain ⟨front, back, hsplit, rfl, -, -⟩ := Block.exists_of_closeLast? hclose
      rw [IsNumbered, hsplit] at h
      simpa [IsNumbered, Block.close] using h
  | start => exact h
  | finish => exact h

theorem IsNumbered.run (h : l.IsNumbered) (calls : List BlockCall) :
    (keeper.run l calls).2.IsNumbered := by
  induction calls generalizing l with
  | nil => exact h
  | cons call calls ih => exact ih (h.serve call)

/-- A block may be closed while one inside of it is open, and that one is the innermost. -/
example : (keeper.run {} [.push ['a'], .push ['b'], .pop ['a'], .start]).1 =
    [.ok (.blockStart 1), .ok (.blockStart 2), .ok (.blockEnd 1), .ok (.blockStart 2)] := rfl

end Ledger

/-- **A ledger is the open blocks in it.** Whatever is asked of a ledger, from its first entry on,
the answers are those that follow from the open blocks, which are those of the ledger throughout;
there are no others that follow, and open blocks that are kept on their own give them too. The
labels that blocks are given when they are opened and closed are all written differently, and the
number in them is the place of the block. -/
theorem ledger_runs (calls : List BlockCall) :
    (∀ answers s, Scopes.Runs {} calls answers s ↔
      answers = (Ledger.keeper.run {} calls).1 ∧ s = (Ledger.keeper.run {} calls).2.scopes) ∧
    Scopes.keeper.run {} calls =
      ((Ledger.keeper.run {} calls).1, (Ledger.keeper.run {} calls).2.scopes) ∧
    ((BlockCall.issued calls (Ledger.keeper.run {} calls).1).map Label.text).Nodup ∧
    (Ledger.keeper.run {} calls).2.IsNumbered := by
  have hruns : Scopes.Runs {} calls (Ledger.keeper.run {} calls).1
      (Ledger.keeper.run {} calls).2.scopes := Ledger.runs {} calls
  have hempty : Ledger.IsNumbered {} := rfl
  refine ⟨fun answers s => ⟨fun h => ?_, ?_⟩, hruns.eq_run, ?_, hempty.run calls⟩
  · exact Prod.mk.inj (h.eq_run.symm.trans hruns.eq_run)
  · rintro ⟨rfl, rfl⟩
    exact hruns
  · have hproper := hruns.isProper_of_mem
    refine List.Nodup.map_on (fun l hl m hm => ?_) (hruns.numbered Issued.init.numbered).nodup
    exact Label.text_injective (hproper l hl) (hproper m hm)

end Assembly

end WordMachine
