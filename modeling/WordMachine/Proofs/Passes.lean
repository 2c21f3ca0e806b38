import WordMachine.Assembly.Program
import WordMachine.Proofs.Lines

/-!
# The two passes

The assembler keeps account of lines, failures and listings on the way. Without these, a program is
a list of statements, and what the two passes make of one is a matter of running sums: the first
gives every statement the sum of the sizes before it as its address, and the second sets the words
of all statements one behind another. `Program.Realizes` states this about a program and a list of
statements, and the main result here is that it is the whole truth about `assemble?`. Later files
argue about lists of statements alone.

## How the two sides meet

A failure that has been put on record stays there, in either pass. So a source that is assembled had
none at any point, and each step of a pass may be taken to have gone well. For the first pass that
leaves `Context.expandLines` and the sums of `Statement.locate`. The second pass is compared with
`Statement.encodeFrom`, which stops at the first statement that has no words.

## Main results

* `Placed.encode_iff_emit`: the second pass
* `assemble?_eq_ok_iff`: a source is assembled to the program that its statements are realized by
-/

namespace WordMachine

namespace Assembly

/-! ### Statements one behind another -/

namespace DataItem

/-- The words of items that follow one another from an address on. -/
def encodeAll (labels : LabelMap) (address : Nat) : List DataItem → Except LineError (List Word)
  | [] => .ok []
  | item :: rest => do
    let ws ← item.resolve labels (UInt16.ofNat address)
    let more ← encodeAll labels (address + item.size) rest
    return ws ++ more

/-- What is wrong with the items that have no words, among items that follow one another from an
address on. -/
def errors (labels : LabelMap) (address : Nat) : List DataItem → List LineError
  | [] => []
  | item :: rest =>
    match item.resolve labels (UInt16.ofNat address) with
    | .ok _ => errors labels (address + item.size) rest
    | .error e => e :: errors labels (address + item.size) rest

end DataItem

namespace Statement

/-- The words of a statement whose first word is at an address. -/
def encode (labels : LabelMap) (address : Nat) : Statement → Except LineError (List Word)
  | label _ => .ok []
  | data items => DataItem.encodeAll labels address items
  | op o => (o.encode labels (UInt16.ofNat address)).map ([·])

/-- What is wrong with a statement whose first word is at an address. -/
def errors (labels : LabelMap) (address : Nat) : Statement → List LineError
  | label _ => []
  | data items => DataItem.errors labels address items
  | op o =>
    match o.encode labels (UInt16.ofNat address) with
    | .ok _ => []
    | .error e => [e]

/-- The words of statements that follow one another from an address on. -/
def encodeFrom (labels : LabelMap) (address : Nat) : List Statement → Except LineError (List Word)
  | [] => .ok []
  | s :: rest => do
    let ws ← s.encode labels address
    let more ← encodeFrom labels (address + s.size) rest
    return ws ++ more

/-- The labels that statements define, in order. -/
def names (ss : List Statement) : List Label :=
  ss.filterMap fun
    | label name => some name
    | _ => none

/-- The addresses of labels, once those defined by statements from an address on are among them. -/
def labelsFrom (labels : LabelMap) (address : Nat) : List Statement → LabelMap
  | [] => labels
  | label name :: rest => labelsFrom (labels.insert name (UInt16.ofNat address)) address rest
  | s :: rest => labelsFrom labels (address + s.size) rest

@[simp] theorem names_nil : names [] = [] := rfl

@[simp] theorem names_label_cons (name : Label) (ss : List Statement) :
    names (label name :: ss) = name :: names ss := rfl

@[simp] theorem names_data_cons (items : List DataItem) (ss : List Statement) :
    names (data items :: ss) = names ss := rfl

@[simp] theorem names_op_cons (op : Operation) (ss : List Statement) :
    names (Statement.op op :: ss) = names ss := rfl

@[simp] theorem names_append (ss ts : List Statement) : names (ss ++ ts) = names ss ++ names ts :=
  List.filterMap_append

theorem mem_names_iff {name : Label} {ss : List Statement} :
    name ∈ names ss ↔ label name ∈ ss := by
  rw [names, List.mem_filterMap]
  constructor
  · rintro ⟨s, hs, hname⟩
    rcases s with other | items | op <;> cases hname
    exact hs
  · intro h
    exact ⟨_, h, rfl⟩

theorem size_data_cons (item : DataItem) (items : List DataItem) :
    (data (item :: items)).size = item.size + (data items).size := rfl

end Statement

/-- A program of the given statements: they have room, none defines a label again, and the words
are theirs under the labels that they define. -/
structure Program.Realizes (p : Program) (ss : List Statement) : Prop where
  sizes_le : Statement.sizes ss ≤ addressSpace
  nodup_names : (Statement.names ss).Nodup
  labels_eq : p.labels = Statement.labelsFrom ∅ 0 ss
  encodeFrom_eq : Statement.encodeFrom p.labels 0 ss = .ok p.words

/-! ### The second pass -/

namespace DataItem

variable {labels : LabelMap} {address : Nat} {items : List DataItem}

theorem encodeAll_cons_eq_ok_iff {item : DataItem} {ws : List Word} :
    encodeAll labels address (item :: items) = .ok ws ↔
      ∃ us, item.resolve labels (UInt16.ofNat address) = .ok us ∧
        ∃ vs, encodeAll labels (address + item.size) items = .ok vs ∧ us ++ vs = ws := by
  simp only [encodeAll, bind_eq_ok_iff, pure_eq_ok_iff]

theorem length_encodeAll {ws : List Word} (h : encodeAll labels address items = .ok ws) :
    ws.length = (Statement.data items).size := by
  induction items generalizing address ws with
  | nil =>
    cases h
    rfl
  | cons item items ih =>
    obtain ⟨us, hus, vs, hvs, rfl⟩ := encodeAll_cons_eq_ok_iff.mp h
    rw [List.length_append, length_resolve hus, ih hvs, Statement.size_data_cons]

/-- Items that all have words come to those words. -/
theorem emitItems_of_encodeAll {ws : List Word} (done : List Word) (errors : List LineError)
    (h : encodeAll labels address items = .ok ws) :
    emitItems labels address done errors items = (done.reverse ++ ws, errors.reverse) := by
  induction items generalizing address done ws with
  | nil =>
    cases h
    rw [emitItems, List.append_nil]
  | cons item items ih =>
    obtain ⟨us, hus, vs, hvs, rfl⟩ := encodeAll_cons_eq_ok_iff.mp h
    rw [emitItems, hus]
    dsimp only
    rw [ih (us.reverse ++ done) hvs, List.reverse_append, List.reverse_reverse, List.append_assoc]

/-- The errors among items are put behind those that there were before. -/
theorem snd_emitItems (done : List Word) (before : List LineError) :
    (emitItems labels address done before items).2 =
      before.reverse ++ DataItem.errors labels address items := by
  induction items generalizing address done before with
  | nil => exact (List.append_nil _).symm
  | cons item items ih =>
    rw [emitItems, errors]
    rcases item.resolve labels (UInt16.ofNat address) with e | us
    · dsimp only
      rw [ih, List.reverse_cons, List.append_assoc, List.singleton_append]
    · exact ih _ _

/-- Items among which there is no error have words. -/
theorem errors_eq_nil_iff :
    DataItem.errors labels address items = [] ↔ ∃ ws, encodeAll labels address items = .ok ws := by
  induction items generalizing address with
  | nil => exact ⟨fun _ => ⟨[], rfl⟩, fun _ => rfl⟩
  | cons item items ih =>
    simp only [encodeAll_cons_eq_ok_iff]
    rw [errors]
    rcases item.resolve labels (UInt16.ofNat address) with e | us
    · simp
    · dsimp only
      rw [ih]
      constructor
      · rintro ⟨vs, hvs⟩
        exact ⟨us ++ vs, us, rfl, vs, hvs, rfl⟩
      · rintro ⟨_, _, -, vs, hvs, -⟩
        exact ⟨vs, hvs⟩

end DataItem

namespace Statement

variable {labels : LabelMap} {address : Nat}

theorem encode_op_eq_ok_iff {op : Operation} {ws : List Word} :
    (Statement.op op).encode labels address = .ok ws ↔
      ∃ w, op.encode labels (UInt16.ofNat address) = .ok w ∧ [w] = ws := by
  rw [encode, map_eq_ok_iff]

theorem length_encode {s : Statement} {ws : List Word} (h : s.encode labels address = .ok ws) :
    ws.length = s.size := by
  cases s with
  | label name =>
    cases h
    rfl
  | data items => exact DataItem.length_encodeAll h
  | op op =>
    obtain ⟨w, -, rfl⟩ := encode_op_eq_ok_iff.mp h
    rfl

/-- A statement with which nothing is wrong has words. -/
theorem errors_eq_nil_iff {s : Statement} :
    s.errors labels address = [] ↔ ∃ ws, s.encode labels address = .ok ws := by
  cases s with
  | label name => exact ⟨fun _ => ⟨[], rfl⟩, fun _ => rfl⟩
  | data items => exact DataItem.errors_eq_nil_iff
  | op op =>
    simp only [encode_op_eq_ok_iff]
    rw [errors]
    rcases op.encode labels (UInt16.ofNat address) with e | w <;> simp

theorem encodeFrom_cons_eq_ok_iff {s : Statement} {ss : List Statement} {ws : List Word} :
    encodeFrom labels address (s :: ss) = .ok ws ↔
      ∃ us, s.encode labels address = .ok us ∧
        ∃ vs, encodeFrom labels (address + s.size) ss = .ok vs ∧ us ++ vs = ws := by
  simp only [encodeFrom, bind_eq_ok_iff, pure_eq_ok_iff]

/-- A label has no words, and what stands behind it stands where it does. -/
theorem encodeFrom_label_cons (labels : LabelMap) (address : Nat) (name : Label)
    (ss : List Statement) :
    encodeFrom labels address (.label name :: ss) = encodeFrom labels address ss := by
  rw [encodeFrom, encode, size, Nat.add_zero]
  rcases encodeFrom labels address ss with e | ws <;> rfl

end Statement

namespace Placed

variable {labels : LabelMap} {u : Placed}

/-- What goes on record about a unit is what is wrong with its statement. -/
theorem failures_emit :
    (u.emit labels).failures = (u.stmt.val.errors labels u.address).map u.failure := by
  rw [emit]
  rcases u.stmt.val with name | items | op
  · rfl
  · dsimp only
    rw [DataItem.snd_emitItems]
    rfl
  · rw [Statement.errors]
    dsimp only
    rcases op.encode labels (UInt16.ofNat u.address) with e | w <;> rfl

theorem words_emit {ws : List Word} (h : u.stmt.val.encode labels u.address = .ok ws) :
    (u.emit labels).words = ws := by
  rw [emit]
  rcases hstmt : u.stmt.val with name | items | op <;> rw [hstmt] at h
  · exact Except.ok.inj h
  · dsimp only
    rw [DataItem.emitItems_of_encodeAll [] [] h]
    rfl
  · obtain ⟨w, hw, rfl⟩ := Statement.encode_op_eq_ok_iff.mp h
    dsimp only
    rw [hw]

/-- A statement has words exactly if nothing is wrong with its unit, and then they are the words
that the unit comes to. -/
theorem encode_iff_emit {ws : List Word} :
    u.stmt.val.encode labels u.address = .ok ws ↔
      (u.emit labels).failures = [] ∧ (u.emit labels).words = ws := by
  rw [failures_emit, List.map_eq_nil_iff, Statement.errors_eq_nil_iff]
  constructor
  · intro h
    exact ⟨⟨ws, h⟩, words_emit h⟩
  · rintro ⟨⟨vs, hvs⟩, rfl⟩
    rw [words_emit hvs]
    exact hvs

/-- The same for units and the statements that they place. -/
theorem encodeFrom_iff_emit {us : List Placed} {ss : List Statement} {address : Nat}
    (h : us.map (·.place) = Statement.locate address ss) {ws : List Word} :
    Statement.encodeFrom labels address ss = .ok ws ↔
      us.flatMap (fun u => (u.emit labels).failures) = [] ∧
        us.flatMap (fun u => (u.emit labels).words) = ws := by
  induction ss generalizing us address ws with
  | nil =>
    obtain rfl := List.map_eq_nil_iff.mp h
    simp [Statement.encodeFrom]
  | cons s ss ih =>
    obtain ⟨u, us, rfl, hu, hus⟩ := List.map_eq_cons_iff.mp h
    obtain ⟨rfl, rfl⟩ := Prod.mk.inj hu
    rw [Statement.encodeFrom_cons_eq_ok_iff, List.flatMap_cons, List.flatMap_cons,
      List.append_eq_nil_iff]
    constructor
    · rintro ⟨vs, hvs, rest, hrest, rfl⟩
      obtain ⟨hfail, rfl⟩ := encode_iff_emit.mp hvs
      obtain ⟨hfails, rfl⟩ := (ih hus).mp hrest
      exact ⟨⟨hfail, hfails⟩, rfl⟩
    · rintro ⟨⟨hfail, hfails⟩, rfl⟩
      exact ⟨_, encode_iff_emit.mpr ⟨hfail, rfl⟩, _, (ih hus).mpr ⟨hfails, rfl⟩, rfl⟩

end Placed

/-! ### Definitions of labels -/

namespace Placed

open Statement (names)

/-- The failures of units that define labels again, those included that have been seen before. -/
def repeats (seen : List Label) : List Placed → List Failure
  | [] => []
  | u :: us =>
    match u.stmt.val with
    | .label name =>
      (if name ∈ seen then [u.failure (.duplicateLabel name.text)] else [])
        ++ repeats (name :: seen) us
    | _ => repeats seen us

/-- Nothing is defined again exactly if all labels are different. -/
theorem repeats_eq_nil_iff {seen : List Label} {us : List Placed} :
    repeats seen us = [] ↔
      (names (us.map (·.stmt.val))).Nodup ∧ ∀ name ∈ names (us.map (·.stmt.val)), name ∉ seen := by
  induction us generalizing seen with
  | nil => simp [repeats]
  | cons u us ih =>
    rw [repeats, List.map_cons]
    rcases u.stmt.val with name | items | op
    · dsimp only
      rw [List.append_eq_nil_iff, ih, Statement.names_label_cons, List.nodup_cons,
        List.forall_mem_cons]
      by_cases hmem : name ∈ seen
      · simp [hmem]
      · simp only [hmem, if_false, List.mem_cons, true_and, not_false_iff]
        grind
    · exact ih
    · exact ih

/-- Every failure is about a label that was seen before or that some unit before defines too. -/
theorem exists_of_mem_repeats {seen : List Label} {us : List Placed} {f : Failure}
    (h : f ∈ repeats seen us) :
    ∃ front u back name, us = front ++ u :: back ∧ u.stmt.val = .label name ∧
      (name ∈ seen ∨ name ∈ names (front.map (·.stmt.val))) ∧
      f = u.failure (.duplicateLabel name.text) := by
  induction us generalizing seen with
  | nil => cases h
  | cons u us ih =>
    rw [repeats] at h
    rcases hstmt : u.stmt.val with name | items | op <;> rw [hstmt] at h
    · rcases List.mem_append.mp h with h | h
      · by_cases hmem : name ∈ seen
        · rw [if_pos hmem, List.mem_singleton] at h
          exact ⟨[], u, us, name, rfl, hstmt, Or.inl hmem, h⟩
        · simp [hmem] at h
      · obtain ⟨front, v, back, other, rfl, hv, hother, rfl⟩ := ih h
        refine ⟨u :: front, v, back, other, rfl, hv, ?_, rfl⟩
        rw [List.map_cons, hstmt, Statement.names_label_cons]
        grind
    · obtain ⟨front, v, back, other, rfl, hv, hother, rfl⟩ := ih h
      refine ⟨u :: front, v, back, other, rfl, hv, ?_, rfl⟩
      rw [List.map_cons, hstmt]
      exact hother
    · obtain ⟨front, v, back, other, rfl, hv, hother, rfl⟩ := ih h
      refine ⟨u :: front, v, back, other, rfl, hv, ?_, rfl⟩
      rw [List.map_cons, hstmt]
      exact hother

end Placed

namespace Definitions

open Statement (names labelsFrom)

/-- The addresses that units give to labels are those of the statements that they place. -/
theorem labels_foldl_add {us : List Placed} {ss : List Statement} {address : Nat}
    (h : us.map (·.place) = Statement.locate address ss) (d : Definitions) :
    (us.foldl add d).labels = labelsFrom d.labels address ss := by
  induction ss generalizing us address d with
  | nil =>
    obtain rfl := List.map_eq_nil_iff.mp h
    rfl
  | cons s ss ih =>
    obtain ⟨u, us, rfl, hu, hus⟩ := List.map_eq_cons_iff.mp h
    obtain ⟨rfl, rfl⟩ := Prod.mk.inj hu
    rw [List.foldl_cons, ih hus]
    rcases hstmt : u.stmt.val with name | items | op <;> rw [add, hstmt] <;> rfl

/-- What goes on record about the labels of units is what is defined again. -/
theorem failures_foldl_add (us : List Placed) {d : Definitions} {seen : List Label}
    (hseen : ∀ name, name ∈ d.labels ↔ name ∈ seen) :
    (us.foldl add d).failures = (Placed.repeats seen us).reverse ++ d.failures := by
  induction us generalizing d seen with
  | nil => rfl
  | cons u us ih =>
    rw [List.foldl_cons, Placed.repeats]
    rcases hstmt : u.stmt.val with name | items | op
    · have hinsert : ∀ other, other ∈ (d.add u).labels ↔ other ∈ name :: seen := by
        intro other
        rw [add, hstmt, Std.TreeMap.mem_insert, Std.LawfulEqOrd.compare_eq_iff_eq, hseen,
          List.mem_cons, eq_comm]
      rw [ih hinsert, add, hstmt]
      by_cases hmem : name ∈ seen
      · have hcontains : d.labels.contains name = true :=
          Std.TreeMap.contains_iff_mem.mpr ((hseen name).mpr hmem)
        simp [hmem, hcontains]
      · have hcontains : d.labels.contains name = false := by
          rw [← Bool.not_eq_true, Std.TreeMap.contains_iff_mem, hseen]
          exact hmem
        simp [hmem, hcontains]
    · rw [add, hstmt]
      exact ih hseen
    · rw [add, hstmt]
      exact ih hseen

theorem failures_ofUnits (us : List Placed) :
    (ofUnits us).failures = (Placed.repeats [] us).reverse := by
  rw [ofUnits, @failures_foldl_add us {} [] (by simp), List.append_nil]

end Definitions

/-! ### Both passes -/

open Statement (sizes locate names labelsFrom encodeFrom)

/-- A source is assembled if nothing goes on record, and then to what the passes made. -/
theorem assemble?_eq_ok_iff_failures {source : List Char} {p : Program} :
    assemble? source = .ok p ↔
      (Placement.ofSource source).failures = [] ∧
      (Definitions.ofUnits (Placement.ofSource source).units.reverse).failures = [] ∧
      (Placement.ofSource source).units.reverse.flatMap
        (fun u => (u.emit (Definitions.ofUnits
          (Placement.ofSource source).units.reverse).labels).failures) = [] ∧
      p = ⟨(Placement.ofSource source).units.reverse.flatMap
          (fun u => (u.emit (Definitions.ofUnits
            (Placement.ofSource source).units.reverse).labels).words),
        (Definitions.ofUnits (Placement.ofSource source).units.reverse).labels,
        (Placement.ofSource source).codeLines⟩ := by
  rw [assemble?, assemble]
  dsimp only
  split
  · next h =>
    rw [List.isEmpty_iff, List.append_eq_nil_iff, List.reverse_eq_nil_iff,
      List.reverse_eq_nil_iff] at h
    rw [List.flatMap_map, List.flatMap_map]
    split
    · next hemit =>
      rw [List.isEmpty_iff] at hemit
      simp only [h, hemit, true_and, Except.ok.injEq]
      exact eq_comm
    · next hemit =>
      rw [List.isEmpty_iff] at hemit
      simp [h, hemit]
  · next h =>
    rw [List.isEmpty_iff, List.append_eq_nil_iff, List.reverse_eq_nil_iff,
      List.reverse_eq_nil_iff] at h
    simp only [reduceCtorEq, false_iff]
    rintro ⟨hplace, hdef, -⟩
    exact h ⟨hplace, hdef⟩

/-- The definitions of units that place statements from the first address on. -/
theorem Definitions.ofUnits_eq {us : List Placed} {ss : List Statement}
    (h : us.map (·.place) = locate 0 ss) :
    (ofUnits us).labels = labelsFrom ∅ 0 ss ∧ ((ofUnits us).failures = [] ↔ (names ss).Nodup) := by
  refine ⟨labels_foldl_add h {}, ?_⟩
  rw [failures_ofUnits, List.reverse_eq_nil_iff, Placed.repeats_eq_nil_iff,
    Placed.map_stmt_of_place h]
  simp

/-- **What is assembled, and to what.** A source is assembled to a program exactly if none of its
lines is refused and the program is realized by their statements. -/
theorem assemble?_eq_ok_iff {source : List Char} {p : Program} :
    assemble? source = .ok p ↔
      ∃ groups, Context.expandLines {} 1 (Text.lines source) = .ok groups ∧
        p.Realizes (Statement.ofLines groups) ∧ p.codeLines = groups.countP isCode := by
  rw [assemble?_eq_ok_iff_failures]
  constructor
  · rintro ⟨hplace, hdef, hemit, rfl⟩
    obtain ⟨groups, hgroups, hle⟩ :=
      Placement.expandLines_of_addLines (p := {}) (Nat.zero_le _) hplace
    have hroom : 0 + sizes (Statement.ofLines groups) ≤ addressSpace := hle
    obtain ⟨-, hplaces, hcode⟩ := Placement.addLines_of_expandLines hgroups hroom
    obtain ⟨hlabels, hnodup⟩ := Definitions.ofUnits_eq hplaces
    refine ⟨groups, hgroups, ⟨by omega, hnodup.mp hdef, hlabels, ?_⟩, ?_⟩
    · exact (Placed.encodeFrom_iff_emit hplaces).mpr ⟨hemit, rfl⟩
    · exact hcode.trans (Nat.zero_add _)
  · rintro ⟨groups, hgroups, hp, hcount⟩
    have hroom : 0 + sizes (Statement.ofLines groups) ≤ addressSpace := by
      have := hp.sizes_le
      omega
    obtain ⟨hplace, hplaces, hcode⟩ :=
      Placement.addLines_of_expandLines (p := {}) hgroups hroom
    obtain ⟨hlabels, hnodup⟩ := Definitions.ofUnits_eq hplaces
    have hwords := hp.encodeFrom_eq
    rw [hp.labels_eq, ← hlabels, Placed.encodeFrom_iff_emit hplaces] at hwords
    refine ⟨hplace, hnodup.mpr hp.nodup_names, hwords.1, ?_⟩
    obtain ⟨words, labels, codeLines⟩ := p
    rw [Program.mk.injEq]
    refine ⟨hwords.2.symm, hp.labels_eq.trans hlabels.symm, ?_⟩
    exact hcount.trans ((Nat.zero_add _).symm.trans hcode.symm)

/-- The statements of an assembled source are all that its lines come to. -/
theorem realizes_ofSource {source : List Char} {p : Program} (h : assemble? source = .ok p) :
    p.Realizes (Statement.ofSource source) := by
  obtain ⟨groups, hgroups, hp, -⟩ := assemble?_eq_ok_iff.mp h
  rw [← Context.ofReadings_of_expandLines hgroups] at hp
  exact hp

end Assembly

end WordMachine
