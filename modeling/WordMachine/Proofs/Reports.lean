import Mathlib.Data.List.Dedup
import WordMachine.Proofs.Failures

/-!
# Reports

A report begins with a number of lines, and the number is that of the failures. So it is right as
long as no line has two of them. A line that is refused has one. A label that is defined again is
all that there is on its line, since only a call comes to more than one statement, and a call comes
to operations alone. So the first report, and the one about room, have each line once.

References are looked up place by place. Each item of data whose reference comes to nothing is a
failure by itself, and so is each operation. There may be several such items in one line of data,
and a call may come to several such operations. So the second report has a line as often as there
are places on it with nothing to be written (`danglingOn`), and its number is wrong as soon as that
is more than once anywhere.

## Main results

* `Context.length_le_one_or_isOp`: a line comes to one statement at most, or to operations alone
* `nodup_lines`: lines that are refused and lines on which labels are defined again
* `count_lines_secondFailures`: how often the second report has a line
* `report_counts_lines`: when the number in a report is that of its lines
* `exists_line_reported_twice`: one line, reported as two
-/

namespace WordMachine

namespace Assembly

open Statement (sizes names labelsFrom)
open scoped List

/-! ### The statements of one line -/

/-- Whether a statement defines a label. -/
def Statement.isLabel : Statement → Bool
  | label _ => true
  | _ => false

theorem Statement.isLabel_of_isOp {s : Statement} (h : s.isOp = true) : s.isLabel = false := by
  cases s with
  | op o => rfl
  | label name => cases h
  | data items => cases h

namespace Context

variable {ctx next : Context} {tokens : List Token} {stmts : List (Located Statement)}

/-- **A line comes to one statement at most, or to operations alone.** -/
theorem length_le_one_or_isOp (h : ctx.expand tokens = (.ok stmts, next)) :
    stmts.length ≤ 1 ∨ ∀ stmt ∈ stmts, stmt.val.isOp = true := by
  obtain ⟨rs, hrs, mid, hstmts, -⟩ := exists_rows_of_expand h
  rcases length_rows_le_or hrs with hlength | hcode
  · left
    rcases rs with _ | ⟨row, _ | ⟨more, rest⟩⟩
    · cases hstmts
      exact Nat.zero_le 1
    · rw [statements_singleton] at hstmts
      obtain ⟨stmt, -, rfl⟩ := map_eq_ok_iff.mp (Prod.mk.inj hstmts).1
      exact Option.length_toList_le
    · simp only [List.length_cons] at hlength
      omega
  · right
    intro stmt hstmt
    obtain ⟨front, row, back, behind, rfl, hrow⟩ := exists_row_of_mem_statements hstmts hstmt
    obtain ⟨cls, words, hwords⟩ := hcode row (by simp)
    obtain ⟨first, rest, rfl, hfirst, -⟩ := List.map_eq_cons_iff.mp hwords
    obtain ⟨op, -, hop, -⟩ := exists_op_of_statement hfirst hrow
    obtain rfl := Option.some.inj hop
    rfl

end Context

/-- A line has one statement at most, or operations alone. -/
def Reading.IsUniform (r : Reading) : Prop :=
  r.statements.length ≤ 1 ∨ ∀ stmt ∈ r.statements, stmt.val.isOp = true

theorem Context.isUniform_readings (ctx : Context) (line : Nat) (texts : List (List Char)) :
    ∀ r ∈ ctx.readings line texts, r.IsUniform := by
  refine forall_mem_readings (fun ctx line text => ?_) ctx line texts
  rw [Reading.IsUniform, expandText]
  rcases Token.scan line text with e | tokens
  · exact .inl (Nat.zero_le 1)
  · dsimp only
    rcases hx : ctx.expand tokens with ⟨e | stmts, next⟩
    · exact .inl (Nat.zero_le 1)
    · exact length_le_one_or_isOp hx

/-! ### Lines that are reported first -/

namespace Reading

variable {r : Reading} {rs : List Reading} {stmts : List (Located Statement)}

/-- Whether a line is not refused. -/
def isAccepted (r : Reading) : Bool := r.failure?.isNone

/-- The lines on which labels are defined, one for each definition. -/
def labelLines (rs : List Reading) : List Nat :=
  rs.flatMap fun r => (r.statements.filter (·.val.isLabel)).map fun _ => r.line

theorem lines_failures (rs : List Reading) :
    (rs.filterMap (·.failure?)).map (·.line) = (rs.filter (!·.isAccepted)).map (·.line) := by
  induction rs with
  | nil => rfl
  | cons r rest ih =>
    obtain ⟨line, source, e | stmts⟩ := r
    · exact congrArg (line :: ·) ih
    · exact ih

theorem filter_isLabel_of_isOp (h : ∀ stmt ∈ stmts, stmt.val.isOp = true) :
    stmts.filter (·.val.isLabel) = [] :=
  List.filter_eq_nil_iff.mpr fun stmt hstmt => by
    rw [Statement.isLabel_of_isOp (h stmt hstmt)]
    decide

/-- On a line there is one definition at most, and none if it is refused. -/
theorem labelLines_sublist (h : ∀ r ∈ rs, r.IsUniform) :
    labelLines rs <+ (rs.filter (·.isAccepted)).map (·.line) := by
  induction rs with
  | nil => exact .slnil
  | cons r rest ih =>
    obtain ⟨hr, hrest⟩ := List.forall_mem_cons.mp h
    rw [labelLines, List.flatMap_cons]
    obtain ⟨line, source, e | stmts⟩ := r
    · exact ih hrest
    · refine List.Sublist.append (?_ : _ <+ [line]) (ih hrest)
      rcases hr with hlength | hop
      · rw [List.map_const']
        exact (List.replicate_sublist_replicate (n := 1) line).mpr
          (Nat.le_trans (List.length_filter_le _ _) hlength)
      · rw [filter_isLabel_of_isOp hop]
        exact List.nil_sublist _

end Reading

namespace Placed

open Reading (labelLines)

/-- Where labels are defined again, labels are defined. -/
theorem lines_repeats_sublist (seen : List Label) (us : List Placed) :
    (repeats seen us).map (·.line) <+ (us.filter (·.stmt.val.isLabel)).map (·.line) := by
  induction us generalizing seen with
  | nil => exact .slnil
  | cons u us ih =>
    rw [repeats, List.filter_cons]
    rcases u.stmt.val with name | items | op
    · rw [List.map_append]
      refine List.Sublist.append (?_ : _ <+ [u.line]) (ih _)
      split
      · exact List.Sublist.refl _
      · exact List.nil_sublist _
    · exact ih seen
    · exact ih seen

theorem lines_row (line : Nat) (source : List Char) (address : Nat)
    (stmts : List (Located Statement)) :
    ((row line source address stmts).filter (·.stmt.val.isLabel)).map (·.line) =
      (stmts.filter (·.val.isLabel)).map fun _ => line := by
  induction stmts generalizing address with
  | nil => rfl
  | cons stmt rest ih =>
    rw [row, List.filter_cons, List.filter_cons]
    dsimp only
    split
    · rw [List.map_cons, ih, List.map_cons]
    · exact ih _

theorem lines_ofReadings (address : Nat) (rs : List Reading) :
    ((ofReadings address rs).filter (·.stmt.val.isLabel)).map (·.line) = labelLines rs := by
  induction rs generalizing address with
  | nil => rfl
  | cons r rest ih =>
    rw [ofReadings, List.filter_append, List.map_append, ih, lines_row]
    rfl

theorem lines_repeats_ofReadings (rs : List Reading) :
    (repeats [] (ofReadings 0 rs)).map (·.line) <+ labelLines rs :=
  lines_ofReadings 0 rs ▸ lines_repeats_sublist [] (ofReadings 0 rs)

end Placed

/-- **Each line is reported once**, if it is refused or if labels on it are defined again. -/
theorem nodup_lines {rs : List Reading} (hlines : (rs.map (·.line)).Nodup)
    (huniform : ∀ r ∈ rs, r.IsUniform) {ls : List Nat} (hls : ls <+ Reading.labelLines rs) :
    ((rs.filterMap (·.failure?)).map (·.line) ++ ls).Nodup := by
  have hsublist : (rs.filterMap (·.failure?)).map (·.line) ++ ls <+
      (rs.filter (!·.isAccepted) ++ rs.filter (!!·.isAccepted)).map (·.line) := by
    rw [List.map_append, Reading.lines_failures]
    simp only [Bool.not_not]
    exact (List.Sublist.refl _).append (hls.trans (Reading.labelLines_sublist huniform))
  have hperm := (List.filter_append_perm (fun r : Reading => !r.isAccepted) rs).map (·.line)
  exact (hperm.nodup_iff.mpr hlines).sublist hsublist

theorem nodup_lines_ofSource (source : List Char) :
    ((Reading.ofSource source).map (·.line)).Nodup := by
  have hzip := congrArg (List.map Prod.snd) (Context.zipIdx_readings {} 1 (Text.lines source))
  rw [List.map_map, List.zipIdx_map_snd] at hzip
  exact (congrArg List.Nodup hzip).mpr List.nodup_range'

theorem nodup_lines_firstFailures (source : List Char) :
    ((firstFailures source).map (·.line)).Nodup := by
  rw [firstFailures, List.map_append]
  exact nodup_lines (nodup_lines_ofSource source) (Context.isUniform_readings {} 1 _)
    (Placed.lines_repeats_ofReadings _)

theorem filter_isLabel_of_overflow {r : Reading} {stmt : Located Statement}
    {stmts rest : List (Located Statement)} (huniform : r.IsUniform)
    (hr : r.answer = .ok (stmts ++ stmt :: rest)) : stmts.filter (·.val.isLabel) = [] := by
  rw [Reading.IsUniform, Reading.statements_of_answer hr] at huniform
  rcases huniform with hlength | hop
  · rw [List.length_append, List.length_cons] at hlength
    obtain rfl : stmts = [] := List.length_eq_zero_iff.mp (by omega)
    rfl
  · exact Reading.filter_isLabel_of_isOp fun other hother =>
      hop other (List.mem_append_left _ hother)

/-- The same with a line among them that has no room. It counts as refused. -/
theorem nodup_lines_overflow {source : List Char} {front : List Reading} {r : Reading}
    {stmt : Located Statement} {stmts : List (Located Statement)}
    (hout : Reading.RunsOut 0 (Reading.ofSource source) front r stmts stmt) :
    ((front.filterMap (·.failure?) ++ r.overflow stmt
      :: Placed.repeats [] (Placed.ofReadings 0 (front ++ [r.cut stmts]))).map (·.line)).Nodup := by
  obtain ⟨back, hsplit⟩ := hout.eq_append
  obtain ⟨rest, hr⟩ := hout.answer_eq
  have huniform : ∀ r' ∈ front ++ r :: back, r'.IsUniform :=
    hsplit ▸ Context.isUniform_readings {} 1 (Text.lines source)
  obtain ⟨hfront, hback⟩ := List.forall_mem_append.mp huniform
  -- The statements in front of the one without room are operations, if there are any. So the line
  -- has the same part in all this as one that is refused for that reason.
  let refused : Reading := { r with answer := .error (r.overflow stmt).error }
  have hlines : ((front ++ [refused]).map (·.line)).Nodup := by
    have hall := nodup_lines_ofSource source
    rw [hsplit, List.append_cons, List.map_append, List.nodup_append] at hall
    rw [List.map_append] at hall ⊢
    exact hall.1
  have hlabels : Reading.labelLines (front ++ [r.cut stmts]) =
      Reading.labelLines (front ++ [refused]) := by
    have hnone := filter_isLabel_of_overflow (hback r List.mem_cons_self) hr
    simp [Reading.labelLines, Reading.cut, refused, hnone]
  have hrefused : front.filterMap (·.failure?) ++ [r.overflow stmt] =
      (front ++ [refused]).filterMap (·.failure?) := by
    rw [List.filterMap_append]
    rfl
  rw [List.append_cons, hrefused, List.map_append]
  refine nodup_lines hlines (List.forall_mem_append.mpr ⟨hfront, ?_⟩)
    (hlabels ▸ Placed.lines_repeats_ofReadings _)
  exact List.forall_mem_singleton.mpr (.inl (Nat.zero_le 1))

/-! ### References that come to nothing, one by one -/

instance (r : LabelRef) (ss : List Statement) (address : Nat) (range : Range) :
    Decidable (r.Misses ss address range) :=
  match h : r.resolve (labelsFrom ∅ 0 ss) (UInt16.ofNat address) with
  | .error _ => decidable_of_iff (r.label ∉ names ss) (by simp [LabelRef.Misses, h])
  | .ok value =>
    decidable_of_iff (r.label ∉ names ss ∨ value ∉ range) (by simp [LabelRef.Misses, h])

/-- Whether an immediate is a reference that misses. -/
def Imm.misses (ss : List Statement) (address : Nat) (range : Range) : Imm → Bool
  | num _ => false
  | ref r => r.Misses ss address range

/-- Whether an item of data refers to a label without a definition. -/
def DataItem.dangles (ss : List Statement) : DataItem → Bool
  | words _ => false
  | ref r => r.label ∉ names ss

/-- In how many places a statement at an address has nothing to be written. An operation has one
place, whatever is wrong with it. -/
def Statement.dangling (ss : List Statement) (address : Nat) : Statement → Nat
  | label _ => 0
  | data items => items.countP (·.dangles ss)
  | op o =>
    if o.srcImm.misses ss address o.layout.sourceRange ||
      o.dstImm.misses ss address o.layout.destinationRange then 1 else 0

/-- In how many places of a line there is nothing to be written. -/
def danglingOn (source : List Char) (line : Nat) : Nat :=
  ((Placed.ofReadings 0 (Reading.ofSource source)).filter (·.line = line)).foldr
    (fun u n => u.stmt.val.dangling (Statement.ofSource source) u.address + n) 0

section Dangling

variable {ss : List Statement} {address : Nat}

theorem Imm.misses_iff {i : Imm} {range : Range} :
    i.misses ss address range = true ↔ ∃ r, i = .ref r ∧ r.Misses ss address range := by
  cases i <;> simp [misses]

theorem DataItem.length_errors (items : List DataItem) :
    (DataItem.errors (labelsFrom ∅ 0 ss) address items).length = items.countP (·.dangles ss) := by
  induction items generalizing address with
  | nil => rfl
  | cons item items ih =>
    rw [errors, List.countP_cons]
    rcases item with ws | r
    · simpa [DataItem.resolve, dangles] using ih
    · have hresolve := @LabelRef.exists_resolve_iff ss r (UInt16.ofNat address)
      rw [DataItem.resolve]
      rcases hr : r.resolve (labelsFrom ∅ 0 ss) (UInt16.ofNat address) with e | value <;>
        rw [hr] at hresolve
      · have hnot : r.label ∉ names ss := by simpa using hresolve
        simpa [Except.map, dangles, hnot] using ih
      · have hmem : r.label ∈ names ss := by simpa using hresolve
        simpa [Except.map, dangles, hmem] using ih

/-- **A statement that was read has an error for each of its places that has nothing to be
written.**
-/
theorem Statement.length_errors {s : Statement} (hread : s.IsRead) :
    (s.errors (labelsFrom ∅ 0 ss) address).length = s.dangling ss address := by
  cases s with
  | label name => rfl
  | data items => exact DataItem.length_errors items
  | op o =>
    have hnil := @errors_eq_nil_iff_not_dangles ss address _ hread
    rw [Dangles, ← Imm.misses_iff, ← Imm.misses_iff, ← Bool.or_eq_true] at hnil
    rw [dangling]
    rw [errors] at hnil ⊢
    rcases hencode : o.encode (labelsFrom ∅ 0 ss) (UInt16.ofNat address) with e | w <;>
      rw [hencode] at hnil
    · have hmiss := Classical.not_not.mp (mt hnil.mpr (List.cons_ne_nil e []))
      rw [if_pos hmiss]
      rfl
    · rw [if_neg (hnil.mp rfl)]
      rfl

end Dangling

theorem Placed.isRead_of_mem {source : List Char} {u : Placed}
    (hu : u ∈ ofReadings 0 (Reading.ofSource source)) : u.stmt.val.IsRead := by
  have hmem : u.stmt.val ∈ Statement.ofSource source := by
    rw [← map_stmt_of_place (place_ofSource source)]
    exact List.mem_map_of_mem hu
  exact Context.isRead_of_mem_readings hmem

/-- What is wrong with units has a line as often as there are places on it with nothing to be
written. -/
theorem Placed.count_lines_unresolved {ss : List Statement} {us : List Placed}
    (h : ∀ u ∈ us, u.stmt.val.IsRead) (line : Nat) :
    ((unresolved (labelsFrom ∅ 0 ss) us).map (·.line)).count line =
      (us.filter (·.line = line)).foldr (fun u n => u.stmt.val.dangling ss u.address + n) 0 := by
  induction us with
  | nil => rfl
  | cons u us ih =>
    obtain ⟨hu, hus⟩ := List.forall_mem_cons.mp h
    have hlines : ((u.stmt.val.errors (labelsFrom ∅ 0 ss) u.address).map u.failure).map (·.line) =
        List.replicate (u.stmt.val.dangling ss u.address) u.line := by
      rw [List.map_map, ← Statement.length_errors hu]
      exact List.map_const'
    rw [unresolved, List.flatMap_cons, List.map_append, hlines, List.count_append,
      List.count_replicate, List.filter_cons, ← unresolved, ih hus]
    by_cases hline : u.line = line
    · simp [hline]
    · simp [hline]

/-- **How often the second report has a line.** -/
theorem count_lines_secondFailures (source : List Char) (line : Nat) :
    ((secondFailures source).map (·.line)).count line = danglingOn source line :=
  Placed.count_lines_unresolved (fun _ => Placed.isRead_of_mem) line

/-- A report begins with the number of failures. -/
theorem exists_report_eq (fs : List Failure) : ∃ rest, report fs =
    "Assembly Error: " ++ toString fs.length ++ " line(s) failed to compile" ++ rest := by
  have hfold : ∀ (fs : List Failure) (text : String),
      ∃ rest, fs.foldl (fun text f => text ++ "\n" ++ f.message) text = text ++ rest := by
    intro fs
    induction fs with
    | nil => exact fun text => ⟨"", (String.append_empty).symm⟩
    | cons f fs ih =>
      intro text
      obtain ⟨rest, hrest⟩ := ih (text ++ "\n" ++ f.message)
      exact ⟨"\n" ++ f.message ++ rest, by rw [List.foldl_cons, hrest]; simp [String.append_assoc]⟩
  exact hfold fs _

/-- **When a report counts lines.** No two failures of a source have the same line, and so their
number is that of their lines, if a line is refused, a label is defined again or there is no room;
and otherwise exactly if no line has more than one place with nothing to be written. A report begins
with the number of failures, and without refused lines and labels that are defined again, each line
has as many of them as it has such places. -/
theorem report_counts_lines {source : List Char} {fs : List Failure}
    (h : assemble? source = .error fs) :
    ((fs.map (·.line)).Nodup ↔
      (∃ r ∈ Reading.ofSource source, ∃ e, r.answer = .error e) ∨
        ¬ (names (Statement.ofSource source)).Nodup ∨
        addressSpace < sizes (Statement.ofSource source) ∨ ∀ line, danglingOn source line ≤ 1) ∧
    (fs.length = (fs.map (·.line)).dedup.length ↔ (fs.map (·.line)).Nodup) ∧
    (¬ (∃ r ∈ Reading.ofSource source, ∃ e, r.answer = .error e) →
      (names (Statement.ofSource source)).Nodup →
      sizes (Statement.ofSource source) ≤ addressSpace →
      ∀ line, (fs.map (·.line)).count line = danglingOn source line) ∧
    ∃ rest, report fs =
      "Assembly Error: " ++ toString fs.length ++ " line(s) failed to compile" ++ rest := by
  have hnil := @firstFailures_eq_nil_iff source
  refine ⟨?_, ?_, ?_, exists_report_eq fs⟩
  · rcases assemble?_eq_error_cases h with
      ⟨hlt, front, r, stmts, stmt, hout, rfl⟩ | ⟨hroom, hne, rfl | ⟨hfirst, rfl⟩⟩
    · exact iff_of_true (nodup_lines_overflow hout) (.inr (.inr (.inl hlt)))
    · refine iff_of_true (nodup_lines_firstFailures source) ?_
      by_cases hrefused : ∃ r ∈ Reading.ofSource source, ∃ e, r.answer = .error e
      · exact .inl hrefused
      · refine .inr (.inl fun hnodup => hne (hnil.mpr ⟨fun r hr e he => ?_, hnodup⟩))
        exact hrefused ⟨r, hr, e, he⟩
    · obtain ⟨haccepted, hnodup⟩ := hnil.mp hfirst
      have hnone : ¬ ∃ r ∈ Reading.ofSource source, ∃ e, r.answer = .error e :=
        fun ⟨r, hr, e, he⟩ => haccepted r hr e he
      have hlt := Nat.not_lt.mpr hroom
      rw [List.nodup_iff_count_le_one]
      simp [hnone, hnodup, hlt, count_lines_secondFailures]
  · rw [eq_comm, ← List.dedup_eq_self, ← (List.dedup_sublist (fs.map (·.line))).length_eq,
      List.length_map]
  · intro hrefused hnodup hroom
    have hfirst : firstFailures source = [] :=
      hnil.mpr ⟨fun r hr e he => hrefused ⟨r, hr, e, he⟩, hnodup⟩
    rcases assemble?_eq_error_cases h with ⟨hlt, -⟩ | ⟨-, hne, rfl | ⟨-, rfl⟩⟩
    · exact absurd hroom (Nat.not_le.mpr hlt)
    · exact absurd hfirst hne
    · exact count_lines_secondFailures source

/-- A refused line and a label that is defined again, and then a call of a label that is not
defined, with an argument that is not defined either. -/
theorem report_counts_lines_two :
    (∃ fs, assemble? "?\nx:\nx:".toList = .error fs ∧ (fs.map (·.line)).Nodup ∧ fs.length = 2) ∧
    ∃ fs, assemble? "1.mem <= go(4.val x.imm, 2.reg)".toList = .error fs ∧
      (fs.map (·.line)).count 1 = 2 ∧ ¬ (fs.map (·.line)).Nodup := by
  constructor
  · have h := congrArg Prod.fst
      (@assemble_of_firstFailures "?\nx:\nx:".toList (by decide +kernel) (by decide +kernel))
    refine ⟨_, h, (report_counts_lines h).1.mpr (.inl ?_), ?_⟩
    · exact ⟨⟨1, "?".toList, .error ⟨⟨1, 1⟩, .malformed "?".toList .unknownLine⟩⟩,
        List.mem_cons_self, _, rfl⟩
    · decide +kernel
  · have h := @assemble?_of_secondFailures "1.mem <= go(4.val x.imm, 2.reg)".toList
      (by decide +kernel) (by decide +kernel) (by decide +kernel)
    have hcount : danglingOn "1.mem <= go(4.val x.imm, 2.reg)".toList 1 = 2 := by decide +kernel
    obtain ⟨hnodup, -, hlines, -⟩ := report_counts_lines h
    have hrefused : ¬ ∃ r ∈ Reading.ofSource "1.mem <= go(4.val x.imm, 2.reg)".toList,
        ∃ e, r.answer = .error e := fun ⟨r, hr, e, he⟩ =>
      (firstFailures_eq_nil_iff.mp (by decide +kernel)).1 r hr e he
    have htwo := (hlines hrefused (by decide +kernel) (by decide +kernel) 1).trans hcount
    refine ⟨_, h, htwo, fun honce => ?_⟩
    rw [List.nodup_iff_count_le_one] at honce
    have hone := honce 1
    omega

/-- One line with two references, which is reported as two lines. -/
theorem exists_line_reported_twice :
    ∃ fs, assemble? "% x.imm y.imm".toList = .error fs ∧ fs.map (·.line) = [1, 1] ∧
      Text.lines "% x.imm y.imm".toList = ["% x.imm y.imm".toList] ∧
      ∃ rest, report fs = "Assembly Error: 2 line(s) failed to compile" ++ rest := by
  have hlines : (secondFailures "% x.imm y.imm".toList).map (·.line) = [1, 1] := by decide +kernel
  have hlength : (secondFailures "% x.imm y.imm".toList).length = 2 := by
    rw [← List.length_map (·.line), hlines]
    rfl
  have hnumber : "Assembly Error: " ++ toString 2 ++ " line(s) failed to compile" =
      "Assembly Error: 2 line(s) failed to compile" := by decide +kernel
  obtain ⟨rest, hrest⟩ := exists_report_eq (secondFailures "% x.imm y.imm".toList)
  rw [hlength, hnumber] at hrest
  exact ⟨_, assemble?_of_secondFailures (by decide +kernel) (by decide +kernel) (by decide +kernel),
    hlines, by decide +kernel, rest, hrest⟩

end Assembly

end WordMachine
