import WordMachine.Proofs.Fidelity

/-!
# Failures

An assembly that fails reports all that is wrong, but not all at once. Lines that are refused and
labels that are defined again are reported together, and nothing is asked about references before
both are out of the way. So there are two reports, and each of them is a list over the source in its
order: `Reading.failure?` and `Placed.repeats` for the first, `Placed.unresolved` for the second.

What can be wrong with a statement is known without encoding it. A number was checked when it was
read, so only a reference can fail, for want of a label or for want of room (`LabelRef.Misses`). An
item of data takes any number.

A program that outgrows the addresses is given up at the first statement without room. That is a
third report, in which this statement ends the list of refused lines, and the labels that have been
defined again up to there are behind it. All else is about sources for which there is room.

## Main results

* `Statement.errors_eq_nil_iff_not_dangles`: what can be wrong with a statement that was read
* `assemble_of_firstFailures`, `assemble?_of_secondFailures`: the two reports
* `assemble_of_lt`, `assemble?_eq_error_cases`: the third one, and all of them
* `assemble_failures`: when a source fails, and what is reported
-/

namespace WordMachine

namespace Assembly

open Statement (sizes names labelsFrom)

/-! ### References that come to nothing -/

/-- A reference in the word at an address has no label among the statements, or its number is out of
range. -/
def LabelRef.Misses (r : LabelRef) (ss : List Statement) (address : Nat) (range : Range) : Prop :=
  r.label ∉ names ss ∨
    ∃ value, r.resolve (labelsFrom ∅ 0 ss) (UInt16.ofNat address) = .ok value ∧ value ∉ range

/-- A statement at an address has a reference that comes to nothing. -/
def Statement.Dangles (s : Statement) (ss : List Statement) (address : Nat) : Prop :=
  match s with
  | .label _ => False
  | .data items => ∃ r, .ref r ∈ items ∧ r.label ∉ names ss
  | .op o =>
    (∃ r, o.srcImm = .ref r ∧ r.Misses ss address o.layout.sourceRange) ∨
      ∃ r, o.dstImm = .ref r ∧ r.Misses ss address o.layout.destinationRange

section Dangling

variable {ss : List Statement} {address : Nat}

/-- A reference comes to a number exactly if its label is defined. -/
theorem LabelRef.exists_resolve_iff {r : LabelRef} {w : Word} :
    (∃ value, r.resolve (labelsFrom ∅ 0 ss) w = .ok value) ↔ r.label ∈ names ss := by
  have hnone := @Statement.getElem?_labelsFrom_eq_none_iff ∅ 0 ss r.label
  rw [resolve]
  rcases hlabel : (labelsFrom ∅ 0 ss)[r.label]? with _ | target <;> rw [hlabel] at hnone
  · simpa using hnone
  · have hmem : r.label ∈ names ss := by simpa using hnone
    cases r.kind <;> simp [hmem]

/-- An immediate comes to a number in range, unless it is a reference that misses. -/
theorem Imm.exists_resolve_iff {i : Imm} {range : Range} (hnum : ∀ n, i = .num n → n ∈ range) :
    (∃ value, i.resolve (labelsFrom ∅ 0 ss) (UInt16.ofNat address) = .ok value ∧ value ∈ range) ↔
      ¬ ∃ r, i = .ref r ∧ r.Misses ss address range := by
  cases i with
  | num n => simpa [resolve] using hnum n rfl
  | ref r =>
    have hresolve := @LabelRef.exists_resolve_iff ss r (UInt16.ofNat address)
    simp only [Imm.ref.injEq, exists_eq_left', LabelRef.Misses, not_or, Classical.not_not,
      ← hresolve]
    constructor
    · rintro ⟨value, hvalue, hmem⟩
      refine ⟨⟨value, hvalue⟩, ?_⟩
      rintro ⟨other, hother, hout⟩
      exact hout (Except.ok.inj (hvalue.symm.trans hother) ▸ hmem)
    · rintro ⟨⟨value, hvalue⟩, hout⟩
      exact ⟨value, hvalue, Classical.not_not.mp fun hmem => hout ⟨value, hvalue, hmem⟩⟩

/-- Items of data have words exactly if all labels in them are defined. -/
theorem DataItem.errors_eq_nil_iff_mem {items : List DataItem} :
    DataItem.errors (labelsFrom ∅ 0 ss) address items = [] ↔
      ∀ r, .ref r ∈ items → r.label ∈ names ss := by
  induction items generalizing address with
  | nil => simp [errors]
  | cons item items ih =>
    rw [errors]
    rcases item with ws | r
    · simpa [DataItem.resolve] using ih
    · have hresolve := @LabelRef.exists_resolve_iff ss r (UInt16.ofNat address)
      rw [DataItem.resolve]
      rcases hr : r.resolve (labelsFrom ∅ 0 ss) (UInt16.ofNat address) with e | value <;>
        rw [hr] at hresolve
      · have hnot : r.label ∉ names ss := by simpa using hresolve
        simp [Except.map, hnot]
      · have hmem : r.label ∈ names ss := by simpa using hresolve
        simpa [Except.map, hmem] using ih

/-- **A statement that was read has a word for each of its places, unless one of its references
comes to nothing.** -/
theorem Statement.errors_eq_nil_iff_not_dangles {s : Statement} (hread : s.IsRead) :
    s.errors (labelsFrom ∅ 0 ss) address = [] ↔ ¬ s.Dangles ss address := by
  cases s with
  | label name => exact ⟨fun _ => not_false, fun _ => rfl⟩
  | data items =>
    rw [errors, DataItem.errors_eq_nil_iff_mem, Dangles]
    simp
  | op op =>
    obtain ⟨cls, scopes, mnemonic, rest, hop⟩ := hread.readOperation
    obtain ⟨d, -, hd⟩ := readOperation_eq_ok_iff.mp hop
    rw [Dangles, not_or, ← Imm.exists_resolve_iff hd.srcImm_mem,
      ← Imm.exists_resolve_iff hd.dstImm_mem, errors_eq_nil_iff]
    simp only [encode_op_eq_ok_iff, Operation.encode, map_eq_ok_iff, Operation.toInst_eq_ok_iff,
      Imm.resolve_eq_ok_iff]
    constructor
    · rintro ⟨_, _, ⟨_, ⟨src, dst, hsrc, hsrcMem, hdst, hdstMem, -⟩, -⟩, -⟩
      exact ⟨⟨src, hsrc, hsrcMem⟩, dst, hdst, hdstMem⟩
    · rintro ⟨⟨src, hsrc, hsrcMem⟩, dst, hdst, hdstMem⟩
      exact ⟨_, _, ⟨_, ⟨src, dst, hsrc, hsrcMem, hdst, hdstMem, rfl⟩, rfl⟩, rfl⟩

end Dangling

/-! ### The two reports -/

/-- What is wrong with units once labels have addresses. -/
def Placed.unresolved (labels : LabelMap) (us : List Placed) : List Failure :=
  us.flatMap fun u => (u.stmt.val.errors labels u.address).map u.failure

/-- What is reported first: the lines that are refused, and behind them the labels that are defined
again. -/
def firstFailures (source : List Char) : List Failure :=
  (Reading.ofSource source).filterMap (·.failure?)
    ++ Placed.repeats [] (Placed.ofReadings 0 (Reading.ofSource source))

/-- What is reported if that is nothing: the statements whose references come to nothing. -/
def secondFailures (source : List Char) : List Failure :=
  Placed.unresolved (labelsFrom ∅ 0 (Statement.ofSource source))
    (Placed.ofReadings 0 (Reading.ofSource source))

theorem firstFailures_eq_nil_iff {source : List Char} :
    firstFailures source = [] ↔
      (∀ r ∈ Reading.ofSource source, ∀ e, r.answer ≠ .error e) ∧
        (names (Statement.ofSource source)).Nodup := by
  have hnone : ∀ r : Reading, r.failure? = none ↔ ∀ e, r.answer ≠ .error e := by
    rintro ⟨line, text, e | stmts⟩ <;> simp
  rw [firstFailures, List.append_eq_nil_iff, List.filterMap_eq_nil_iff, Placed.repeats_eq_nil_iff,
    Placed.map_stmt_of_place (Placed.place_ofSource source)]
  simp [hnone]

theorem secondFailures_eq_nil_iff {source : List Char} :
    secondFailures source = [] ↔
      ∀ before s behind, Statement.ofSource source = before ++ s :: behind →
        ¬ s.Dangles (Statement.ofSource source) (sizes before) := by
  have hplace := Placed.place_ofSource source
  rw [secondFailures, Placed.unresolved, List.flatMap_eq_nil_iff]
  simp only [List.map_eq_nil_iff]
  constructor
  · intro h before s behind hsplit
    have hmem : s ∈ Statement.ofSource source := by
      rw [hsplit]
      simp
    rw [← Statement.errors_eq_nil_iff_not_dangles (Context.isRead_of_mem_readings hmem)]
    have hlocated : (sizes before, s) ∈ Statement.locate 0 (Statement.ofSource source) :=
      Statement.mem_locate_iff.mpr ⟨before, behind, hsplit, (Nat.zero_add _).symm⟩
    rw [← hplace, List.mem_map] at hlocated
    obtain ⟨u, hu, hs⟩ := hlocated
    obtain ⟨haddress, rfl⟩ := Prod.mk.inj hs
    rw [← haddress]
    exact h u hu
  · intro h u hu
    have hlocated : u.place ∈ Statement.locate 0 (Statement.ofSource source) := by
      rw [← hplace]
      exact List.mem_map_of_mem hu
    obtain ⟨before, behind, hsplit, haddress⟩ := Statement.mem_locate_iff.mp hlocated
    have hmem : u.stmt.val ∈ Statement.ofSource source := by
      rw [hsplit]
      simp
    rw [haddress, Nat.zero_add,
      Statement.errors_eq_nil_iff_not_dangles (Context.isRead_of_mem_readings hmem)]
    exact h before u.stmt.val behind hsplit

section Room

variable {source : List Char}
  (hroom : sizes (Statement.ofSource source) ≤ addressSpace)

include hroom

/-- Where there is room, the units are those of all lines that are not refused. -/
theorem reverse_units_ofSource : (Placement.ofSource source).units.reverse =
    Placed.ofReadings 0 (Reading.ofSource source) := by
  rw [Placement.ofSource_of_le hroom, Placement.extend]
  simp [Reading.ofSource]

/-- What is on record behind the first pass and the definitions. -/
theorem failures_ofSource : (Placement.ofSource source).failures.reverse ++
    (Definitions.ofUnits (Placement.ofSource source).units.reverse).failures.reverse =
      firstFailures source := by
  rw [Definitions.failures_ofUnits, List.reverse_reverse, reverse_units_ofSource hroom,
    Placement.ofSource_of_le hroom, Placement.extend]
  simp [firstFailures, Reading.ofSource]

/-- What goes on record in the second pass. -/
theorem failures_emit_ofSource : ((Placement.ofSource source).units.reverse.map
    (·.emit (Definitions.ofUnits (Placement.ofSource source).units.reverse).labels)).flatMap
      (·.failures) = secondFailures source := by
  rw [reverse_units_ofSource hroom,
    (Definitions.ofUnits_eq (Placed.place_ofSource source)).1,
    List.flatMap_map]
  simp only [Placed.failures_emit]
  rfl

/-- **The first report.** Behind it there is no second pass, and nothing is listed. -/
theorem assemble_of_firstFailures (h : firstFailures source ≠ []) :
    assemble source = (.error (firstFailures source), []) := by
  rw [assemble]
  dsimp only
  rw [failures_ofSource hroom, if_neg (mt List.isEmpty_iff.mp h)]

/-- **The second report.** -/
theorem assemble?_of_secondFailures (hfirst : firstFailures source = [])
    (h : secondFailures source ≠ []) : assemble? source = .error (secondFailures source) := by
  rw [assemble?, assemble]
  dsimp only
  rw [failures_ofSource hroom, if_pos (List.isEmpty_iff.mpr hfirst), failures_emit_ofSource hroom,
    if_neg (mt List.isEmpty_iff.mp h)]

/-- Without a report there is a program. -/
theorem exists_program_of_no_failures (hfirst : firstFailures source = [])
    (hsecond : secondFailures source = []) : ∃ p, assemble? source = .ok p := by
  rw [assemble?, assemble]
  dsimp only
  rw [failures_ofSource hroom, if_pos (List.isEmpty_iff.mpr hfirst), failures_emit_ofSource hroom,
    if_pos (List.isEmpty_iff.mpr hsecond)]
  exact ⟨_, rfl⟩

end Room

/-! ### Without room -/

/-- **The report of a source that outgrows the addresses.** Nothing is listed. -/
theorem assemble_of_lt {source : List Char}
    (h : addressSpace < sizes (Statement.ofSource source)) :
    ∃ front r stmts stmt, Reading.RunsOut 0 (Reading.ofSource source) front r stmts stmt ∧
      assemble source = (.error (front.filterMap (·.failure?) ++ r.overflow stmt
        :: Placed.repeats [] (Placed.ofReadings 0 (front ++ [r.cut stmts]))), []) := by
  have hlt : addressSpace < ({} : Placement).next + sizes (Statement.ofSource source) := by
    rw [Nat.zero_add]
    exact h
  obtain ⟨front, r, stmts, stmt, hout, hfailures, hunits⟩ :=
    Placement.addLines_of_lt (p := {}) (Nat.zero_le _) hlt
  refine ⟨front, r, stmts, stmt, hout, ?_⟩
  have hreport : (Placement.ofSource source).failures.reverse ++
      (Definitions.ofUnits (Placement.ofSource source).units.reverse).failures.reverse =
        front.filterMap (·.failure?) ++ r.overflow stmt
          :: Placed.repeats [] (Placed.ofReadings 0 (front ++ [r.cut stmts])) := by
    rw [Definitions.failures_ofUnits, List.reverse_reverse, Placement.ofSource, hfailures, hunits]
    simp
  rw [assemble]
  dsimp only
  rw [hreport, if_neg (by simp)]

/-- There are three reports, and the room decides about the third. -/
theorem assemble?_eq_error_cases {source : List Char} {fs : List Failure}
    (h : assemble? source = .error fs) :
    (addressSpace < sizes (Statement.ofSource source) ∧
      ∃ front r stmts stmt, Reading.RunsOut 0 (Reading.ofSource source) front r stmts stmt ∧
        fs = front.filterMap (·.failure?) ++ r.overflow stmt
          :: Placed.repeats [] (Placed.ofReadings 0 (front ++ [r.cut stmts]))) ∨
      sizes (Statement.ofSource source) ≤ addressSpace ∧ fs ≠ [] ∧
        (fs = firstFailures source ∨ firstFailures source = [] ∧ fs = secondFailures source) := by
  rcases Nat.lt_or_ge addressSpace (sizes (Statement.ofSource source)) with hlt | hroom
  · obtain ⟨front, r, stmts, stmt, hout, hreport⟩ := assemble_of_lt hlt
    rw [assemble?, hreport] at h
    exact .inl ⟨hlt, front, r, stmts, stmt, hout, (Except.error.inj h).symm⟩
  · refine .inr ⟨hroom, ?_⟩
    by_cases hfirst : firstFailures source = []
    · by_cases hsecond : secondFailures source = []
      · obtain ⟨p, hp⟩ := exists_program_of_no_failures hroom hfirst hsecond
        rw [hp] at h
        cases h
      · rw [assemble?_of_secondFailures hroom hfirst hsecond] at h
        obtain rfl := Except.error.inj h
        exact ⟨hsecond, .inr ⟨hfirst, rfl⟩⟩
    · rw [assemble?, assemble_of_firstFailures hroom hfirst] at h
      obtain rfl := Except.error.inj h
      exact ⟨hfirst, .inl rfl⟩

/-! ### When there are failures -/

/-- **All failures, and no others.** A source for which there is room fails exactly if one of its
lines is refused, a label is defined again or a reference comes to nothing. If it is one of the
first two, then what is reported is each refused line and, behind them, each repeated definition,
and nothing is listed. Otherwise it is each operation and each item of data without words. -/
theorem assemble_failures (source : List Char)
    (hroom : sizes (Statement.ofSource source) ≤ addressSpace) :
    ((∀ p, assemble? source ≠ .ok p) ↔
      (∃ r ∈ Reading.ofSource source, ∃ e, r.answer = .error e) ∨
      ¬ (names (Statement.ofSource source)).Nodup ∨
      ∃ before s behind, Statement.ofSource source = before ++ s :: behind ∧
        s.Dangles (Statement.ofSource source) (sizes before)) ∧
    ((∃ r ∈ Reading.ofSource source, ∃ e, r.answer = .error e) ∨
        ¬ (names (Statement.ofSource source)).Nodup →
      assemble source = (.error (firstFailures source), [])) ∧
    (¬ (∃ r ∈ Reading.ofSource source, ∃ e, r.answer = .error e) →
      (names (Statement.ofSource source)).Nodup →
      (∃ before s behind, Statement.ofSource source = before ++ s :: behind ∧
        s.Dangles (Statement.ofSource source) (sizes before)) →
      assemble? source = .error (secondFailures source)) ∧
    (Reading.ofSource source).map (fun r => (r.source, r.line)) = (Text.lines source).zipIdx 1 := by
  have hfirst : firstFailures source ≠ [] ↔
      (∃ r ∈ Reading.ofSource source, ∃ e, r.answer = .error e) ∨
        ¬ (names (Statement.ofSource source)).Nodup := by
    rw [Ne, firstFailures_eq_nil_iff]
    grind
  have hsecond : secondFailures source ≠ [] ↔
      ∃ before s behind, Statement.ofSource source = before ++ s :: behind ∧
        s.Dangles (Statement.ofSource source) (sizes before) := by
    rw [Ne, secondFailures_eq_nil_iff]
    grind
  refine ⟨?_, ?_, ?_, Context.zipIdx_readings _ _ _⟩
  · rw [← or_assoc, ← hfirst, ← hsecond]
    by_cases hnone : firstFailures source = []
    · by_cases hnone' : secondFailures source = []
      · obtain ⟨p, hp⟩ := exists_program_of_no_failures hroom hnone hnone'
        simp [hnone, hnone', hp]
      · simp [hnone', assemble?_of_secondFailures hroom hnone hnone']
    · simp [hnone, assemble?, assemble_of_firstFailures hroom hnone]
  · intro h
    exact assemble_of_firstFailures hroom (hfirst.mpr h)
  · intro hrefused hnodup hdangles
    have hnone : firstFailures source = [] := Classical.not_not.mp fun hne =>
      (hfirst.mp hne).elim hrefused fun h => h hnodup
    exact assemble?_of_secondFailures hroom hnone (hsecond.mpr hdangles)

/-- A line that is refused and a label that is defined again are reported together, and references
that come to nothing only without such. -/
theorem assemble_failures_two :
    assemble "x:\n?\nx:\n% y.imm".toList =
      (.error [⟨2, "?".toList, ⟨⟨2, 1⟩, .malformed "?".toList .unknownLine⟩⟩,
        ⟨3, "x:".toList, ⟨⟨3, 1⟩, .duplicateLabel "x".toList⟩⟩], []) ∧
    assemble? "copy 0.reg x.disp 0.reg\n% y.imm 0000 z.imm".toList =
      .error [⟨1, "copy 0.reg x.disp 0.reg".toList, ⟨⟨1, 1⟩, .unresolvedLabel "x".toList⟩⟩,
        ⟨2, "% y.imm 0000 z.imm".toList, ⟨⟨2, 1⟩, .unresolvedLabel "y".toList⟩⟩,
        ⟨2, "% y.imm 0000 z.imm".toList, ⟨⟨2, 1⟩, .unresolvedLabel "z".toList⟩⟩] := by
  constructor
  · have hreport : firstFailures "x:\n?\nx:\n% y.imm".toList =
        [⟨2, "?".toList, ⟨⟨2, 1⟩, .malformed "?".toList .unknownLine⟩⟩,
          ⟨3, "x:".toList, ⟨⟨3, 1⟩, .duplicateLabel "x".toList⟩⟩] := by decide +kernel
    refine ((assemble_failures "x:\n?\nx:\n% y.imm".toList (by decide +kernel)).2.1
      (Or.inr (by decide +kernel))).trans ?_
    rw [hreport]
  · have hreport : secondFailures "copy 0.reg x.disp 0.reg\n% y.imm 0000 z.imm".toList =
        [⟨1, "copy 0.reg x.disp 0.reg".toList, ⟨⟨1, 1⟩, .unresolvedLabel "x".toList⟩⟩,
          ⟨2, "% y.imm 0000 z.imm".toList, ⟨⟨2, 1⟩, .unresolvedLabel "y".toList⟩⟩,
          ⟨2, "% y.imm 0000 z.imm".toList, ⟨⟨2, 1⟩, .unresolvedLabel "z".toList⟩⟩] := by
      decide +kernel
    have hsecond : ∀ source, firstFailures source = [] →
        Statement.ofSource source =
          [.op { opcode := .copy, src := .pc, dst := .pc,
                 srcImm := .ref ⟨.named "x".toList, .displacement⟩, dstImm := .num 0,
                 effect := .always, push := false },
            .data [.ref ⟨.named "y".toList, .absolute⟩, .words [0],
              .ref ⟨.named "z".toList, .absolute⟩]] →
        assemble? source = .error (secondFailures source) := by
      intro source hfirst hss
      obtain ⟨haccepted, hnodup⟩ := firstFailures_eq_nil_iff.mp hfirst
      have hroom : sizes (Statement.ofSource source) ≤ addressSpace := by
        rw [hss]
        decide
      refine (assemble_failures source hroom).2.2.1 ?_ hnodup
        ⟨[], _, _, hss, Or.inl ⟨_, rfl, Or.inl ?_⟩⟩
      · rintro ⟨r, hr, e, he⟩
        exact haccepted r hr e he
      · rw [hss]
        decide
    refine (hsecond "copy 0.reg x.disp 0.reg\n% y.imm 0000 z.imm".toList (by decide +kernel)
      (by decide +kernel)).trans ?_
    rw [hreport]

end Assembly

end WordMachine
