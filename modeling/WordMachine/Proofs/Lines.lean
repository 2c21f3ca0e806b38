import WordMachine.Assembly.Placement
import WordMachine.Proofs.Rows

/-!
# Lines in their turn

The first pass is a loop over lines with a record of what went wrong. A line is read in the context
that those before it have left, whether these were refused or not, and a line that is refused is
passed over. What the loop adds to that is bookkeeping, and this file takes it away. A `Reading` is
a line together with its answer, `Context.readings` lists them for a whole text, and as long as
there is room the first pass is a function of that list.

## Two views of the same lines

`Context.expandLines` stops at the first line that is refused, so it speaks about sources without
failures only. Theorems about assembled sources are stated with it. Theorems about all that can be
wrong with a source need the readings behind a broken line as well.

## Main results

* `Context.expandLines_eq_ok_iff`: what the two views have to do with each other
* `Placement.addLines_of_le`: the first pass, where there is room
* `Placement.addLines_of_lt`: and where there is none
* `Placement.addLines_of_expandLines`, `Placement.expandLines_of_addLines`: the first pass without
  failures
-/

namespace WordMachine

namespace Assembly

/-! ### Statements one behind another -/

namespace Statement

/-- The number of words that statements occupy together. -/
def sizes : List Statement → Nat
  | [] => 0
  | s :: rest => s.size + sizes rest

/-- Statements that follow one another from an address on, each with its own address. -/
def locate (address : Nat) : List Statement → List (Nat × Statement)
  | [] => []
  | s :: rest => (address, s) :: locate (address + s.size) rest

@[simp] theorem sizes_nil : sizes [] = 0 := rfl

@[simp] theorem sizes_cons (s : Statement) (ss : List Statement) :
    sizes (s :: ss) = s.size + sizes ss := rfl

@[simp] theorem sizes_append (ss ts : List Statement) :
    sizes (ss ++ ts) = sizes ss + sizes ts := by
  induction ss with
  | nil => rw [List.nil_append, sizes_nil, Nat.zero_add]
  | cons s ss ih => rw [List.cons_append, sizes_cons, ih, sizes_cons, Nat.add_assoc]

theorem locate_append (address : Nat) (ss ts : List Statement) :
    locate address (ss ++ ts) = locate address ss ++ locate (address + sizes ss) ts := by
  induction ss generalizing address with
  | nil => rfl
  | cons s ss ih =>
    rw [List.cons_append, locate, ih, locate, List.cons_append, sizes_cons, Nat.add_assoc]

/-- A statement is located at the sum of the sizes before it. -/
theorem mem_locate_iff {start address : Nat} {s : Statement} {ss : List Statement} :
    (address, s) ∈ locate start ss ↔
      ∃ before behind, ss = before ++ s :: behind ∧ address = start + sizes before := by
  induction ss generalizing start with
  | nil => simp [locate]
  | cons first rest ih =>
    rw [locate, List.mem_cons, ih, Prod.mk.injEq]
    constructor
    · rintro (⟨rfl, rfl⟩ | ⟨before, behind, rfl, rfl⟩)
      · exact ⟨[], rest, rfl, rfl⟩
      · exact ⟨first :: before, behind, rfl, by rw [sizes_cons, Nat.add_assoc]⟩
    · rintro ⟨before, behind, hsplit, rfl⟩
      rcases List.cons_eq_append_iff.mp hsplit with ⟨rfl, hhead⟩ | ⟨before, rfl, rfl⟩
      · obtain ⟨rfl, rfl⟩ := List.cons.inj hhead
        exact Or.inl ⟨rfl, rfl⟩
      · exact Or.inr ⟨before, behind, rfl, by rw [sizes_cons, Nat.add_assoc]⟩

theorem map_snd_locate (address : Nat) (ss : List Statement) :
    (locate address ss).map (·.2) = ss := by
  induction ss generalizing address with
  | nil => rfl
  | cons s ss ih => rw [locate, List.map_cons, ih]

end Statement

/-! ### Lines one behind another -/

section

variable {σ : Type} [BlockKeeper σ]

/-- What a line of text comes to, and the context behind it. -/
def Context.expandText (ctx : Context σ) (line : Nat) (text : List Char) :
    Checked (List (Located Statement)) × Context σ :=
  match Token.scan line text with
  | .error e => (.error e, ctx)
  | .ok tokens => ctx.expand tokens

/-- What lines of text come to, one after another, the first of them under the given number. A line
that is refused is the end of it. -/
def Context.expandLines (ctx : Context σ) (line : Nat) :
    List (List Char) → Checked (List (List (Located Statement)))
  | [] => .ok []
  | text :: rest =>
    match ctx.expandText line text with
    | (.error e, _) => .error e
    | (.ok stmts, next) => (next.expandLines (line + 1) rest).map (stmts :: ·)

end

/-- Whether a line has an operation on it. -/
def isCode (stmts : List (Located Statement)) : Bool := stmts.any fun stmt => stmt.val.isOp

/-- The statements of lines, without their places in the source. -/
def Statement.ofLines (groups : List (List (Located Statement))) : List Statement :=
  groups.flatten.map (·.val)

theorem Statement.ofLines_cons (stmts : List (Located Statement))
    (groups : List (List (Located Statement))) :
    Statement.ofLines (stmts :: groups) = stmts.map (·.val) ++ Statement.ofLines groups := by
  rw [ofLines, List.flatten_cons, List.map_append, ofLines]

/-! ### Readings -/

/-- A line in its turn, with what it comes to. -/
structure Reading where
  line : Nat
  source : List Char
  answer : Checked (List (Located Statement))

namespace Reading

/-- The statements of a line, of which a line that is refused has none. -/
def statements (r : Reading) : List (Located Statement) :=
  r.answer.toOption.getD []

/-- What is wrong with a line that is refused. -/
def failure? (r : Reading) : Option Failure :=
  match r.answer with
  | .ok _ => none
  | .error e => some ⟨r.line, r.source, e⟩

/-- The line with these statements, whatever it came to. -/
def cut (r : Reading) (stmts : List (Located Statement)) : Reading := { r with answer := .ok stmts }

/-- The failure of a line that has no room for one of its statements. -/
def overflow (r : Reading) (stmt : Located Statement) : Failure :=
  ⟨r.line, r.source, stmt.withVal (.malformed (Text.trim r.source) .tooLong)⟩

variable (line : Nat) (source : List Char) (stmts : List (Located Statement))

@[simp] theorem statements_ok : (mk line source (.ok stmts)).statements = stmts := rfl

@[simp] theorem statements_error (e : Located LineError) :
    (mk line source (.error e)).statements = [] := rfl

theorem statements_of_answer {r : Reading} {stmts : List (Located Statement)}
    (h : r.answer = .ok stmts) : r.statements = stmts := by
  rw [statements, h]
  rfl

@[simp] theorem failure?_ok : (mk line source (.ok stmts)).failure? = none := rfl

@[simp] theorem failure?_error (e : Located LineError) :
    (mk line source (.error e)).failure? = some ⟨line, source, e⟩ := rfl

end Reading

/-- The statements of lines, of which those that are refused have none. -/
def Statement.ofReadings (rs : List Reading) : List Statement :=
  Statement.ofLines (rs.map (·.statements))

theorem Statement.ofReadings_cons (r : Reading) (rs : List Reading) :
    Statement.ofReadings (r :: rs) = r.statements.map (·.val) ++ Statement.ofReadings rs := by
  rw [ofReadings, List.map_cons, ofLines_cons, ofReadings]

theorem Statement.ofReadings_append (front back : List Reading) :
    Statement.ofReadings (front ++ back)
      = Statement.ofReadings front ++ Statement.ofReadings back := by
  induction front with
  | nil => rfl
  | cons r front ih =>
    rw [List.cons_append, ofReadings_cons, ih, ofReadings_cons, List.append_assoc]

/-- From an address on, lines run out of room at a statement of one of them. There is room for the
lines before it and for the statements in front of it. -/
structure Reading.RunsOut (address : Nat) (rs front : List Reading) (r : Reading)
    (stmts : List (Located Statement)) (stmt : Located Statement) : Prop where
  eq_append : ∃ back, rs = front ++ r :: back
  answer_eq : ∃ rest, r.answer = .ok (stmts ++ stmt :: rest)
  sizes_le :
    address + Statement.sizes (Statement.ofReadings (front ++ [r.cut stmts])) ≤ addressSpace
  lt_sizes : addressSpace <
    address + Statement.sizes (Statement.ofReadings (front ++ [r.cut stmts])) + stmt.val.size

namespace Reading.RunsOut

variable {address next : Nat} {rs front : List Reading} {first r : Reading}
  {stmts : List (Located Statement)} {stmt : Located Statement}

theorem mem (h : RunsOut address rs front r stmts stmt) : r ∈ rs := by
  obtain ⟨back, rfl⟩ := h.eq_append
  exact List.mem_append_right front List.mem_cons_self

theorem mem_statements (h : RunsOut address rs front r stmts stmt) : stmt ∈ r.statements := by
  obtain ⟨rest, hr⟩ := h.answer_eq
  rw [statements_of_answer hr]
  exact List.mem_append_right stmts List.mem_cons_self

/-- The statements for which there is room are followed by the one for which there is none. -/
theorem exists_ofReadings (h : RunsOut address rs front r stmts stmt) :
    ∃ behind, Statement.ofReadings rs =
      Statement.ofReadings (front ++ [r.cut stmts]) ++ stmt.val :: behind := by
  obtain ⟨back, rfl⟩ := h.eq_append
  obtain ⟨rest, hr⟩ := h.answer_eq
  refine ⟨rest.map (·.val) ++ Statement.ofReadings back, ?_⟩
  rw [Statement.ofReadings_append, Statement.ofReadings_append, Statement.ofReadings_cons,
    Statement.ofReadings_cons, statements_of_answer hr]
  simp [cut, Statement.ofReadings, Statement.ofLines]

/-- With a line in front of them, lines run out of room from that line's address on. -/
theorem cons (h : RunsOut next rs front r stmts stmt)
    (hnext : address + Statement.sizes (first.statements.map (·.val)) = next) :
    RunsOut address (first :: rs) (first :: front) r stmts stmt := by
  obtain ⟨⟨back, rfl⟩, hr, hle, hlt⟩ := h
  refine ⟨⟨back, rfl⟩, hr, ?_, ?_⟩
  · rw [List.cons_append, Statement.ofReadings_cons, Statement.sizes_append, ← Nat.add_assoc, hnext]
    exact hle
  · rw [List.cons_append, Statement.ofReadings_cons, Statement.sizes_append, ← Nat.add_assoc, hnext]
    exact hlt

end Reading.RunsOut

namespace Context

variable {σ : Type} [BlockKeeper σ] {ctx : Context} {line : Nat} {texts : List (List Char)}

/-- The context behind lines of text, the first of them under the given number. -/
def behind (ctx : Context σ) (line : Nat) : List (List Char) → Context σ
  | [] => ctx
  | text :: rest => (ctx.expandText line text).2.behind (line + 1) rest

/-- Lines of text, each read in the context behind those before it. -/
def readings (ctx : Context σ) (line : Nat) : List (List Char) → List Reading
  | [] => []
  | text :: rest =>
    ⟨line, text, (ctx.expandText line text).1⟩
      :: (ctx.expandText line text).2.readings (line + 1) rest

/-- Every line is read once, in order. -/
theorem zipIdx_readings (ctx : Context) (line : Nat) (texts : List (List Char)) :
    (ctx.readings line texts).map (fun r => (r.source, r.line)) = texts.zipIdx line := by
  induction texts generalizing ctx line with
  | nil => rfl
  | cons text rest ih => rw [readings, List.map_cons, ih, List.zipIdx_cons]

/-- What holds of any line in any context holds of all lines of a text. -/
theorem forall_mem_readings {P : Reading → Prop}
    (h : ∀ (ctx : Context) (line : Nat) (text : List Char),
      P ⟨line, text, (ctx.expandText line text).1⟩)
    (ctx : Context) (line : Nat) (texts : List (List Char)) :
    ∀ r ∈ ctx.readings line texts, P r := by
  induction texts generalizing ctx line with
  | nil => exact fun r hr => absurd hr List.not_mem_nil
  | cons text rest ih =>
    rw [readings]
    exact List.forall_mem_cons.mpr ⟨h ctx line text, ih _ _⟩

theorem readings_append (ctx : Context) (line : Nat) (front back : List (List Char)) :
    ctx.readings line (front ++ back) =
      ctx.readings line front ++
        (ctx.behind line front).readings (line + front.length) back := by
  induction front generalizing ctx line with
  | nil => rfl
  | cons text rest ih =>
    rw [List.cons_append, readings, ih, readings, behind, List.cons_append, List.length_cons,
      Nat.add_right_comm, Nat.add_assoc]

/-- Lines come to statements all together if each of them does in its turn. -/
theorem expandLines_eq_ok_iff {groups : List (List (Located Statement))} :
    ctx.expandLines line texts = .ok groups ↔
      (ctx.readings line texts).map (·.answer) = groups.map .ok := by
  induction texts generalizing ctx line groups with
  | nil => simp [expandLines, readings, eq_comm]
  | cons text rest ih =>
    rw [expandLines, readings, List.map_cons]
    rcases ctx.expandText line text with ⟨e | stmts, next⟩
    · constructor
      · intro h
        cases h
      · intro h
        obtain ⟨stmts, others, -, hstmts, -⟩ := List.map_eq_cons_iff.mp h.symm
        cases hstmts
    · dsimp only
      rw [map_eq_ok_iff]
      constructor
      · rintro ⟨others, hothers, rfl⟩
        rw [ih.mp hothers, List.map_cons]
      · intro h
        obtain ⟨first, others, rfl, hfirst, hothers⟩ := List.map_eq_cons_iff.mp h.symm
        cases hfirst
        exact ⟨others, ih.mpr hothers.symm, rfl⟩

/-- Lines of which none is refused have the statements that they come to. -/
theorem statements_readings {groups : List (List (Located Statement))}
    (h : ctx.expandLines line texts = .ok groups) :
    (ctx.readings line texts).map (·.statements) = groups := by
  have hanswers := congrArg (List.map fun answer => answer.toOption.getD [])
    (expandLines_eq_ok_iff.mp h)
  rw [List.map_map, List.map_map] at hanswers
  exact hanswers.trans (List.map_id groups)

theorem ofReadings_of_expandLines {groups : List (List (Located Statement))}
    (h : ctx.expandLines line texts = .ok groups) :
    Statement.ofReadings (ctx.readings line texts) = Statement.ofLines groups := by
  rw [Statement.ofReadings, statements_readings h]

/-- Nothing is wrong with such lines. -/
theorem failures_readings {groups : List (List (Located Statement))}
    (h : ctx.expandLines line texts = .ok groups) :
    (ctx.readings line texts).filterMap (·.failure?) = [] := by
  rw [List.filterMap_eq_nil_iff]
  intro r hr
  have hanswer : r.answer ∈ groups.map .ok := by
    rw [← expandLines_eq_ok_iff.mp h]
    exact List.mem_map_of_mem hr
  obtain ⟨stmts, -, hstmts⟩ := List.mem_map.mp hanswer
  rw [Reading.failure?, ← hstmts]

/-- And if nothing is wrong with any line, then all of them come to statements. -/
theorem exists_expandLines (h : (ctx.readings line texts).filterMap (·.failure?) = []) :
    ∃ groups, ctx.expandLines line texts = .ok groups := by
  refine ⟨(ctx.readings line texts).map (·.statements), ?_⟩
  rw [expandLines_eq_ok_iff, List.map_map]
  refine List.map_congr_left ?_
  intro r hr
  have hr := List.filterMap_eq_nil_iff.mp h r hr
  rw [Reading.failure?] at hr
  rw [Function.comp_apply, Reading.statements]
  rcases hanswer : r.answer with e | stmts <;> rw [hanswer] at hr
  · cases hr
  · rfl

/-- A line among lines that are not refused is read behind those before it. -/
theorem exists_of_expandLines {before behind : List (List Char)} {text : List Char}
    {groups : List (List (Located Statement))}
    (h : ctx.expandLines line (before ++ text :: behind) = .ok groups) :
    ∃ front stmts back, groups = front ++ stmts :: back ∧ ctx.expandLines line before = .ok front ∧
      ((ctx.behind line before).expandText (line + before.length) text).1 = .ok stmts := by
  rw [expandLines_eq_ok_iff, readings_append, readings, List.map_append, List.map_cons] at h
  obtain ⟨front, rest, rfl, hfront, hrest⟩ := List.map_eq_append_iff.mp h.symm
  obtain ⟨stmts, back, rfl, hstmts, -⟩ := List.map_eq_cons_iff.mp hrest
  exact ⟨front, stmts, back, rfl, expandLines_eq_ok_iff.mpr hfront.symm, hstmts.symm⟩

theorem isRead_of_mem_expandText {text : List Char} {stmts : List (Located Statement)}
    (h : (ctx.expandText line text).1 = .ok stmts) {stmt : Located Statement}
    (hmem : stmt ∈ stmts) : stmt.val.IsRead := by
  rw [expandText] at h
  rcases hscan : Token.scan line text with e | tokens <;> rw [hscan] at h
  · cases h
  · exact isRead_of_mem_expand (Prod.ext h rfl) hmem

/-- Whatever the lines of a text come to was read from a row. -/
theorem isRead_of_mem_readings {s : Statement}
    (hmem : s ∈ Statement.ofReadings (ctx.readings line texts)) : s.IsRead := by
  induction texts generalizing ctx line with
  | nil => simp [readings, Statement.ofReadings, Statement.ofLines] at hmem
  | cons text rest ih =>
    rw [readings, Statement.ofReadings_cons, List.mem_append] at hmem
    rcases hmem with hmem | hmem
    · obtain ⟨stmt, hstmt, rfl⟩ := List.mem_map.mp hmem
      rcases hanswer : (ctx.expandText line text).1 with e | stmts <;> rw [hanswer] at hstmt
      · simp at hstmt
      · exact isRead_of_mem_expandText hanswer hstmt
    · exact ih hmem

theorem isRead_of_mem_expandLines {groups : List (List (Located Statement))}
    (h : ctx.expandLines line texts = .ok groups) {s : Statement}
    (hmem : s ∈ Statement.ofLines groups) : s.IsRead := by
  rw [← ofReadings_of_expandLines h] at hmem
  exact isRead_of_mem_readings hmem

end Context

/-- The lines of a source, each in its turn. -/
def Reading.ofSource (source : List Char) : List Reading :=
  Context.readings {} 1 (Text.lines source)

/-- The statements of the lines of a source that are not refused. -/
def Statement.ofSource (source : List Char) : List Statement :=
  Statement.ofReadings (Reading.ofSource source)

/-! ### Units -/

namespace Placed

open Statement (sizes locate)

/-- The address of a unit and what stands there. -/
def place (u : Placed) : Nat × Statement := (u.address, u.stmt.val)

/-- The units of the statements of a line, from an address on. -/
def row (line : Nat) (source : List Char) (address : Nat) : List (Located Statement) → List Placed
  | [] => []
  | stmt :: rest => ⟨line, source, address, stmt⟩ :: row line source (address + stmt.val.size) rest

/-- The units of lines, from an address on. -/
def ofReadings (address : Nat) : List Reading → List Placed
  | [] => []
  | r :: rest =>
    row r.line r.source address r.statements
      ++ ofReadings (address + sizes (r.statements.map (·.val))) rest

theorem row_append (line : Nat) (source : List Char) (address : Nat)
    (front back : List (Located Statement)) :
    row line source address (front ++ back) =
      row line source address front
        ++ row line source (address + sizes (front.map (·.val))) back := by
  induction front generalizing address with
  | nil => rfl
  | cons stmt rest ih =>
    rw [List.cons_append, row, ih, row, List.cons_append, List.map_cons, Statement.sizes_cons,
      Nat.add_assoc]

/-- Lines up to some statement of the last one have the units of all lines up to there. -/
theorem ofReadings_cut_prefix {front back : List Reading} {r : Reading}
    {stmts rest : List (Located Statement)} (h : r.answer = .ok (stmts ++ rest)) (address : Nat) :
    ofReadings address (front ++ [r.cut stmts]) <+: ofReadings address (front ++ r :: back) := by
  induction front generalizing address with
  | nil =>
    rw [List.nil_append, List.nil_append, ofReadings, ofReadings, ofReadings,
      Reading.statements_of_answer h, row_append, List.append_nil, List.append_assoc]
    exact List.prefix_append _ _
  | cons first front ih =>
    rw [List.cons_append, List.cons_append, ofReadings, ofReadings]
    exact (List.prefix_append_right_inj _).mpr (ih _)

theorem place_row (line : Nat) (source : List Char) (address : Nat)
    (stmts : List (Located Statement)) :
    (row line source address stmts).map (·.place) = locate address (stmts.map (·.val)) := by
  induction stmts generalizing address with
  | nil => rfl
  | cons stmt rest ih => rw [row, List.map_cons, ih, List.map_cons, locate, place]

/-- Units stand where their statements do. -/
theorem place_ofReadings (address : Nat) (rs : List Reading) :
    (ofReadings address rs).map (·.place) = locate address (Statement.ofReadings rs) := by
  induction rs generalizing address with
  | nil => rfl
  | cons r rest ih =>
    rw [ofReadings, List.map_append, ih, place_row, Statement.ofReadings_cons,
      Statement.locate_append]

theorem place_ofSource (source : List Char) :
    (ofReadings 0 (Reading.ofSource source)).map (·.place)
      = locate 0 (Statement.ofSource source) :=
  place_ofReadings 0 (Reading.ofSource source)

/-- Units place the statements that are located where they stand. -/
theorem map_stmt_of_place {us : List Placed} {address : Nat} {ss : List Statement}
    (h : us.map (·.place) = locate address ss) : us.map (·.stmt.val) = ss := by
  rw [← Statement.map_snd_locate address ss, ← h, List.map_map]
  rfl

end Placed

/-! ### The first pass -/

namespace Placement

open Statement (sizes locate)

variable {p : Placement} {line : Nat} {text : List Char} {texts : List (List Char)}

/-- The statements placed so far, each with its address. -/
def places (p : Placement) : List (Nat × Statement) := p.units.reverse.map (·.place)

/-- What a line changes before its statements are placed. -/
def enter (p : Placement) (next : Context) (stmts : List (Located Statement)) : Placement :=
  { p with ctx := next, codeLines := p.codeLines + if isCode stmts then 1 else 0 }

/-- Statements for which there is room are placed one behind another. -/
theorem addStatements_of_le (line : Nat) (text : List Char) {stmts : List (Located Statement)}
    (h : p.next + sizes (stmts.map (·.val)) ≤ addressSpace) :
    p.addStatements line text stmts =
      ({ p with
          units := (Placed.row line text p.next stmts).reverse ++ p.units
          next := p.next + sizes (stmts.map (·.val)) }, true) := by
  induction stmts generalizing p with
  | nil => rfl
  | cons stmt rest ih =>
    rw [List.map_cons, Statement.sizes_cons] at h
    have hroom : ¬ addressSpace < p.next + stmt.val.size := by omega
    rw [addStatements, if_neg hroom, ih]
    · simp [Placed.row, Nat.add_assoc]
    · dsimp only
      omega

/-- Among statements for which there is no room, the first one without any is put on record, and
those before it are placed. -/
theorem addStatements_of_lt (line : Nat) (text : List Char) {stmts : List (Located Statement)}
    (hp : p.next ≤ addressSpace) (h : addressSpace < p.next + sizes (stmts.map (·.val))) :
    ∃ front stmt back q, stmts = front ++ stmt :: back ∧
      p.addStatements line text stmts = (q, false) ∧
      q.failures =
        ⟨line, text, stmt.withVal (.malformed (Text.trim text) .tooLong)⟩ :: p.failures ∧
      q.units = (Placed.row line text p.next front).reverse ++ p.units ∧
      p.next + sizes (front.map (·.val)) ≤ addressSpace ∧
      addressSpace < p.next + sizes (front.map (·.val)) + stmt.val.size := by
  induction stmts generalizing p with
  | nil =>
    rw [List.map_nil, Statement.sizes_nil] at h
    omega
  | cons stmt rest ih =>
    rw [List.map_cons, Statement.sizes_cons] at h
    by_cases hroom : addressSpace < p.next + stmt.val.size
    · rw [addStatements, if_pos hroom]
      exact ⟨[], stmt, rest, _, rfl, rfl, rfl, rfl, hp, hroom⟩
    · rw [addStatements, if_neg hroom]
      obtain ⟨front, last, back, q, rfl, hq, hfailures, hunits, hfits, hover⟩ := ih (p := { p with
        units := ⟨line, text, p.next, stmt⟩ :: p.units, next := p.next + stmt.val.size })
        (by dsimp only; omega) (by dsimp only; omega)
      refine ⟨stmt :: front, last, back, q, rfl, hq, hfailures, ?_, ?_⟩
      · rw [hunits, Placed.row, List.reverse_cons, List.append_assoc]
        rfl
      · rw [List.map_cons, Statement.sizes_cons, ← Nat.add_assoc]
        exact ⟨hfits, hover⟩

/-- A line that is refused is put on record, and the next one is placed behind it. -/
theorem addLine_of_error {e : Located LineError} {next : Context}
    (h : p.ctx.expandText line text = (.error e, next)) :
    p.addLine line text =
      ({ p with ctx := next, failures := ⟨line, text, e⟩ :: p.failures }, true) := by
  rw [Context.expandText] at h
  rw [addLine]
  rcases hscan : Token.scan line text with err | tokens <;> rw [hscan] at h
  · obtain ⟨herr, rfl⟩ := Prod.mk.inj h
    rw [Except.error.inj herr]
  · dsimp only at h ⊢
    rw [h]

/-- A line that is not refused has its statements placed. -/
theorem addLine_of_ok {stmts : List (Located Statement)} {next : Context}
    (h : p.ctx.expandText line text = (.ok stmts, next)) :
    p.addLine line text = (p.enter next stmts).addStatements line text stmts := by
  rw [Context.expandText] at h
  rw [addLine]
  rcases hscan : Token.scan line text with err | tokens <;> rw [hscan] at h
  · simp at h
  · dsimp only at h ⊢
    rw [h]
    dsimp only [enter]
    cases hcode : isCode stmts <;> rw [isCode] at hcode <;> rw [hcode] <;> rfl

/-- A placement with lines behind those of another. -/
def extend (p : Placement) (line : Nat) (texts : List (List Char)) : Placement :=
  let rs := p.ctx.readings line texts
  { ctx := p.ctx.behind line texts
    units := (Placed.ofReadings p.next rs).reverse ++ p.units
    next := p.next + sizes (Statement.ofReadings rs)
    codeLines := p.codeLines + rs.countP fun r => isCode r.statements
    failures := (rs.filterMap (·.failure?)).reverse ++ p.failures }

/-- **Where there is room, the first pass is a list of readings.** The statements of the lines that
are not refused are placed one behind another, and the lines that are refused are put on record. -/
theorem addLines_of_le
    (h : p.next + sizes (Statement.ofReadings (p.ctx.readings line texts)) ≤ addressSpace) :
    p.addLines line texts = p.extend line texts := by
  induction texts generalizing p line with
  | nil => rfl
  | cons text rest ih =>
    rw [Context.readings, Statement.ofReadings_cons, Statement.sizes_append, ← Nat.add_assoc] at h
    rw [addLines]
    rcases hx : p.ctx.expandText line text with ⟨e | stmts, next⟩ <;> rw [hx] at h
    · rw [addLine_of_error hx]
      dsimp only
      rw [ih h]
      simp only [extend, Context.readings, Context.behind, hx, Placed.ofReadings, Placed.row,
        Statement.ofReadings_cons, Reading.statements_error, List.map_nil, List.nil_append,
        List.countP_cons, List.filterMap_cons, Reading.failure?_error, List.reverse_cons,
        List.append_assoc, List.singleton_append, isCode, List.any_nil, Bool.false_eq_true,
        if_false, Nat.add_zero, Statement.sizes_nil]
    · have hroom : (p.enter next stmts).next + sizes (stmts.map (·.val)) ≤ addressSpace :=
        Nat.le_of_add_right_le h
      rw [addLine_of_ok hx, addStatements_of_le line text hroom]
      dsimp only
      rw [ih h]
      simp only [extend, Context.readings, Context.behind, hx, Placed.ofReadings, enter,
        Statement.ofReadings_cons, Statement.sizes_append, Reading.statements_ok,
        List.reverse_append, List.append_assoc, List.countP_cons, List.filterMap_cons,
        Reading.failure?_ok, Nat.add_assoc, Nat.add_comm (List.countP _ _)]
      rfl

/-- **Where there is no room, the first pass is a list of readings as well**, up to the statement
that has none. Behind the lines before it, that is put on record, and what has been placed are these
lines and the statements in front of it on its own line. -/
theorem addLines_of_lt (hp : p.next ≤ addressSpace) (h : addressSpace < p.next +
      sizes (Statement.ofReadings (p.ctx.readings line texts))) :
    ∃ front r stmts stmt, Reading.RunsOut p.next (p.ctx.readings line texts) front r stmts stmt ∧
      (p.addLines line texts).failures =
        r.overflow stmt :: ((front.filterMap (·.failure?)).reverse ++ p.failures) ∧
      (p.addLines line texts).units =
        (Placed.ofReadings p.next (front ++ [r.cut stmts])).reverse ++ p.units := by
  induction texts generalizing p line with
  | nil =>
    rw [Context.readings, Statement.ofReadings, List.map_nil] at h
    exact absurd hp (Nat.not_le.mpr h)
  | cons text rest ih =>
    rw [Context.readings, Statement.ofReadings_cons, Statement.sizes_append, ← Nat.add_assoc] at h
    rw [addLines, Context.readings]
    rcases hx : p.ctx.expandText line text with ⟨e | stmts, next⟩ <;> rw [hx] at h
    · rw [addLine_of_error hx]
      obtain ⟨front, r, stmts, stmt, hout, hfailures, hunits⟩ :=
        ih (p := { p with ctx := next, failures := ⟨line, text, e⟩ :: p.failures }) hp h
      refine ⟨⟨line, text, .error e⟩ :: front, r, stmts, stmt, hout.cons ?_, ?_, hunits⟩
      · exact Nat.add_zero _
      · simp [hfailures]
    · rw [addLine_of_ok hx]
      by_cases hroom : p.next + sizes (stmts.map (·.val)) ≤ addressSpace
      · rw [addStatements_of_le line text (p := p.enter next stmts) hroom]
        obtain ⟨front, r, others, stmt, hout, hfailures, hunits⟩ :=
          ih (p := { p.enter next stmts with
            units := (Placed.row line text p.next stmts).reverse ++ p.units
            next := p.next + sizes (stmts.map (·.val)) }) hroom h
        refine ⟨⟨line, text, .ok stmts⟩ :: front, r, others, stmt, hout.cons rfl, hfailures, ?_⟩
        rw [List.cons_append, Placed.ofReadings, List.reverse_append, List.append_assoc]
        exact hunits
      · obtain ⟨front, stmt, back, q, rfl, hq, hfailures, hunits, hfits, hover⟩ :=
          addStatements_of_lt line text (p := p.enter next stmts) hp (Nat.lt_of_not_le hroom)
        rw [hq]
        refine ⟨[], ⟨line, text, .ok (front ++ stmt :: back)⟩, front, stmt,
          ⟨⟨_, rfl⟩, ⟨back, rfl⟩, ?_, ?_⟩, hfailures, ?_⟩
        · rw [List.nil_append, Statement.ofReadings_cons, Statement.sizes_append]
          exact hfits
        · rw [List.nil_append, Statement.ofReadings_cons, Statement.sizes_append]
          exact hover
        · rw [List.nil_append, Placed.ofReadings, Placed.ofReadings, List.append_nil]
          exact hunits

/-- A source for which there is room. -/
theorem ofSource_of_le {source : List Char}
    (h : sizes (Statement.ofSource source) ≤ addressSpace) :
    ofSource source = extend {} 1 (Text.lines source) := by
  have hroom : 0 + sizes (Statement.ofSource source) ≤ addressSpace := by
    rw [Nat.zero_add]
    exact h
  exact addLines_of_le hroom

/-- Whatever room there is, units are placed from the first on. -/
theorem exists_units_prefix (source : List Char) :
    ∃ us, us <+: Placed.ofReadings 0 (Reading.ofSource source) ∧
      (ofSource source).units = us.reverse := by
  rcases Nat.lt_or_ge addressSpace (0 + sizes (Statement.ofSource source)) with h | h
  · obtain ⟨front, r, stmts, stmt, hout, -, hunits⟩ :=
      addLines_of_lt (p := {}) (Nat.zero_le _) h
    obtain ⟨back, hsplit⟩ := hout.eq_append
    obtain ⟨rest, hr⟩ := hout.answer_eq
    refine ⟨_, ?_, hunits.trans (List.append_nil _)⟩
    rw [Reading.ofSource, hsplit]
    exact Placed.ofReadings_cut_prefix hr 0
  · refine ⟨_, List.prefix_rfl, ?_⟩
    rw [ofSource, addLines_of_le h]
    exact List.append_nil _

/-- **Lines that are not refused are placed one behind another**, as long as there is room. -/
theorem addLines_of_expandLines {groups : List (List (Located Statement))}
    (h : p.ctx.expandLines line texts = .ok groups)
    (hroom : p.next + sizes (Statement.ofLines groups) ≤ addressSpace) :
    (p.addLines line texts).failures = p.failures ∧
      (p.addLines line texts).places = p.places ++ locate p.next (Statement.ofLines groups) ∧
      (p.addLines line texts).codeLines = p.codeLines + groups.countP isCode := by
  rw [← Context.ofReadings_of_expandLines h] at hroom ⊢
  rw [addLines_of_le hroom, places, places, ← Context.statements_readings h, List.countP_map]
  refine ⟨?_, ?_, rfl⟩
  · rw [extend, Context.failures_readings h]
    rfl
  · rw [extend, List.reverse_append, List.reverse_reverse, List.map_append,
      Placed.place_ofReadings]

/-- Without failures no line was refused, and there was room. -/
theorem expandLines_of_addLines (hp : p.next ≤ addressSpace)
    (h : (p.addLines line texts).failures = []) :
    ∃ groups, p.ctx.expandLines line texts = .ok groups ∧
      p.next + sizes (Statement.ofLines groups) ≤ addressSpace := by
  rcases Nat.lt_or_ge addressSpace
      (p.next + sizes (Statement.ofReadings (p.ctx.readings line texts))) with hroom | hroom
  · obtain ⟨_, _, _, _, -, hfailures, -⟩ := addLines_of_lt hp hroom
    rw [hfailures] at h
    cases h
  · rw [addLines_of_le hroom, extend, List.append_eq_nil_iff, List.reverse_eq_nil_iff] at h
    obtain ⟨groups, hgroups⟩ := Context.exists_expandLines h.1
    refine ⟨groups, hgroups, ?_⟩
    rw [← Context.ofReadings_of_expandLines hgroups]
    exact hroom

end Placement

end Assembly

end WordMachine
