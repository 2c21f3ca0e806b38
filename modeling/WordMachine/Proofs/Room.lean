import WordMachine.Proofs.DataLines
import WordMachine.Proofs.Failures

/-!
# Room

A program may have as many words as there are addresses. A label stands where the next word would,
and it takes no room, so behind a program that fills all addresses there may be labels still. There
is no address left for these: the number of words before them has one bit too many, and what they
get is 0. Everywhere else a label has that number as its address (`label_addresses`).

A source with more words than addresses is never assembled, so nothing else can go wrong with
addresses.

## Main results

* `label_addresses`: the addresses of labels as numbers
* `exists_label_without_address`: a label that has the address of the first word
-/

namespace WordMachine

namespace Assembly

open Statement (sizes labelsFrom encodeFrom)

/-! ### Numbers of words -/

/-- A number of words that is not more than there are addresses is an address itself, unless it is
the number of all of them. -/
theorem eq_ofNat_iff {count : Nat} (h : count ≤ addressSpace) {target : Word} :
    target = UInt16.ofNat count ↔
      count < addressSpace ∧ target.toNat = count ∨ count = addressSpace ∧ target = 0 := by
  rw [addressSpace] at h ⊢
  rcases Nat.lt_or_eq_of_le h with hlt | rfl
  · have hne : count ≠ 65536 := Nat.ne_of_lt hlt
    rw [← UInt16.toNat_inj, Word.toNat_ofNat_of_lt hlt]
    simp [hlt, hne]
  · simp

namespace Program.Realizes

variable {p : Program} {before behind : List Statement} {ss : List Statement}

/-- Statements in two parts divide the words in two. -/
theorem words_split (h : p.Realizes (before ++ behind)) :
    ∃ us vs, encodeFrom p.labels 0 before = .ok us ∧
      encodeFrom p.labels us.length behind = .ok vs ∧ p.words = us ++ vs := by
  obtain ⟨us, hus, vs, hvs, hwords⟩ := Statement.encodeFrom_append_eq_ok_iff.mp h.encodeFrom_eq
  rw [Nat.zero_add, ← Statement.length_encodeFrom hus] at hvs
  exact ⟨us, vs, hus, hvs, hwords.symm⟩

/-- **A label points behind the words before it**, as long as there is something to point at. -/
theorem getElem?_labels_eq_some_iff (h : p.Realizes ss) {name : Label} {target : Word} :
    p.labels[name]? = some target ↔
      ∃ before behind us vs, ss = before ++ .label name :: behind ∧
        encodeFrom p.labels 0 before = .ok us ∧ encodeFrom p.labels us.length behind = .ok vs ∧
        p.words = us ++ vs ∧
        (us.length < addressSpace ∧ target.toNat = us.length ∨
          us.length = addressSpace ∧ vs = [] ∧ target = 0) := by
  have hlength := h.length_words
  have hsizes := h.sizes_le
  rw [h.labels_eq, Statement.getElem?_labelsFrom h.nodup_names, ← h.labels_eq]
  simp only [Std.TreeMap.getElem?_emptyc, reduceCtorEq, and_false, or_false, Nat.zero_add]
  constructor
  · rintro ⟨before, behind, rfl, htarget⟩
    obtain ⟨us, vs, hus, hvs, hwords⟩ := h.words_split
    have hle : us.length + vs.length ≤ addressSpace := by
      rw [← List.length_append, ← hwords, hlength]
      exact hsizes
    rw [← Statement.length_encodeFrom hus, eq_ofNat_iff (by omega)] at htarget
    rw [Statement.encodeFrom_label_cons] at hvs
    refine ⟨before, behind, us, vs, rfl, hus, hvs, hwords, htarget.imp_right ?_⟩
    rintro ⟨hfull, rfl⟩
    exact ⟨hfull, List.length_eq_zero_iff.mp (by omega), rfl⟩
  · rintro ⟨before, behind, us, vs, rfl, hus, -, -, htarget⟩
    refine ⟨before, behind, rfl, ?_⟩
    have hcount := Statement.length_encodeFrom hus
    rw [← hcount]
    rcases htarget with ⟨hlt, htarget⟩ | ⟨hfull, -, htarget⟩
    · exact (eq_ofNat_iff (Nat.le_of_lt hlt)).mpr (.inl ⟨hlt, htarget⟩)
    · exact (eq_ofNat_iff (Nat.le_of_eq hfull)).mpr (.inr ⟨hfull, htarget⟩)

end Program.Realizes

/-- **The addresses of labels.** An assembled source has an address for each label that it defines,
and for no other. If fewer words than there are addresses stand before the definition, then their
number is that address. If all addresses are taken, then no word follows, and it is 0. A source
with more words than there are addresses is never assembled. What is reported of it is the first
statement that has no room behind those before it, which have. -/
theorem label_addresses (source : List Char) :
    (∀ p, assemble? source = .ok p → ∀ name target, p.labels[name]? = some target ↔
      ∃ before behind us vs, Statement.ofSource source = before ++ .label name :: behind ∧
        encodeFrom p.labels 0 before = .ok us ∧ encodeFrom p.labels us.length behind = .ok vs ∧
        p.words = us ++ vs ∧
        (us.length < addressSpace ∧ target.toNat = us.length ∨
          us.length = addressSpace ∧ vs = [] ∧ target = 0)) ∧
    (addressSpace < sizes (Statement.ofSource source) →
      ∃ fs r stmt before behind, assemble source = (.error fs, []) ∧
        r ∈ Reading.ofSource source ∧ stmt ∈ r.statements ∧ r.overflow stmt ∈ fs ∧
        Statement.ofSource source = before ++ stmt.val :: behind ∧
        sizes before ≤ addressSpace ∧ addressSpace < sizes before + stmt.val.size) := by
  refine ⟨fun p hp name target => (realizes_ofSource hp).getElem?_labels_eq_some_iff, fun h => ?_⟩
  obtain ⟨front, r, stmts, stmt, hout, hreport⟩ := assemble_of_lt h
  obtain ⟨behind, hbehind⟩ := hout.exists_ofReadings
  have hroom := hout.sizes_le
  have hover := hout.lt_sizes
  rw [Nat.zero_add] at hroom hover
  exact ⟨_, r, stmt, _, behind, hreport, hout.mem, hout.mem_statements,
    List.mem_append_right _ List.mem_cons_self, hbehind, hroom, hover⟩

/-! ### A label behind words -/

section Behind

/-- Words on a line of data, and a label on the next one. -/
def labelBehind (ws : List Word) : List Char :=
  Text.unwords ["%".toList, ws.flatMap Numeral.word] ++ '\n' :: "end:".toList

variable {ws : List Word}

theorem isDigit_of_mem_words {c : Char} (hc : c ∈ ws.flatMap Numeral.word) :
    Numeral.isDigit c = true :=
  List.all_eq_true.mp (Numeral.fills_words ws).1 c hc

theorem lines_labelBehind (ws : List Word) : Text.lines (labelBehind ws) =
    [Text.unwords ["%".toList, ws.flatMap Numeral.word], "end:".toList] := by
  have hnot (c : Char) (hspace : c ≠ ' ') (hmark : c ∉ "%".toList)
      (hc : Numeral.isDigit c = false) :
      c ∉ Text.unwords ["%".toList, ws.flatMap Numeral.word] := by
    intro hmem
    rcases Inst.mem_unwords hmem with rfl | ⟨t, ht, hct⟩
    · exact hspace rfl
    · simp only [List.mem_cons, List.not_mem_nil, or_false] at ht
      rcases ht with rfl | rfl
      · exact hmark hct
      · rw [isDigit_of_mem_words hct] at hc
        cases hc
  rw [labelBehind, Text.lines_cons (hnot '\n' (by decide) (by decide) (by decide))
    (hnot '\r' (by decide) (by decide) (by decide))]
  rfl

theorem scan_digits (hne : ws ≠ []) :
    Token.scan 1 (Text.unwords ["%".toList, ws.flatMap Numeral.word]) =
      .ok [⟨⟨1, 1⟩, "%".toList⟩, ⟨⟨1, 3⟩, ws.flatMap Numeral.word⟩] := by
  refine Token.scan_unwords (fun t ht => ?_) (fun t ht c hc => ?_)
  · simp only [List.mem_cons, List.not_mem_nil, or_false] at ht
    rcases ht with rfl | rfl
    · decide
    · exact mt (Numeral.fills_words ws).2.eq_nil_iff.mp hne
  · simp only [List.mem_cons, List.not_mem_nil, or_false] at ht
    rcases ht with rfl | rfl
    · rw [List.mem_singleton.mp hc]
      rfl
    · exact Inst.isPlain_of_isTextChar (Inst.isTextChar_of_isDigit (isDigit_of_mem_words hc))

theorem expandLines_labelBehind (hne : ws ≠ []) :
    Context.expandLines {} 1 (Text.lines (labelBehind ws)) =
      .ok [[⟨⟨1, 1⟩, .data [.words ws]⟩], [⟨⟨2, 1⟩, .label (.named "end".toList)⟩]] := by
  obtain ⟨hall, hfills⟩ := Numeral.fills_words ws
  have hdigits : ∀ tk ∈ [(⟨⟨1, 3⟩, ws.flatMap Numeral.word⟩ : Token)], isDigits tk = true := by
    intro tk htk
    rw [List.mem_singleton.mp htk]
    exact hall
  have hline : DataLine [⟨⟨1, 3⟩, ws.flatMap Numeral.word⟩] [.words ws] := by
    rw [dataLine_iff_digitRun hdigits, digitsOf, List.flatMap_singleton]
    exact .words (mt hfills.eq_nil_iff.mp hne) hfills
  have hlabel : Context.expandText {} 2 "end:".toList =
      (.ok [⟨⟨2, 1⟩, .label (.named "end".toList)⟩], {}) := by decide +kernel
  rw [lines_labelBehind, Context.expandLines,
    Context.expandText_digits {} (scan_digits hne) rfl hdigits hline]
  dsimp only
  rw [Context.expandLines, hlabel]
  rfl

theorem ofSource_labelBehind (hne : ws ≠ []) :
    Statement.ofSource (labelBehind ws) = [.data [.words ws], .label (.named "end".toList)] := by
  rw [Statement.ofSource, Reading.ofSource,
    Context.ofReadings_of_expandLines (expandLines_labelBehind hne)]
  rfl

theorem encodeFrom_words (labels : LabelMap) (address : Nat) (ws : List Word) :
    encodeFrom labels address [.data [.words ws]] = .ok ws :=
  Statement.encodeFrom_cons_eq_ok_iff.mpr
    ⟨ws, DataItem.encodeAll_words labels address ws, [], rfl, List.append_nil ws⟩

theorem sizes_labelBehind (hne : ws ≠ []) :
    sizes (Statement.ofSource (labelBehind ws)) = ws.length := by
  rw [ofSource_labelBehind hne]
  rfl

theorem exists_program_labelBehind (hne : ws ≠ []) (hroom : ws.length ≤ addressSpace) :
    ∃ p, assemble? (labelBehind ws) = .ok p ∧ p.words = ws := by
  refine ⟨⟨ws, labelsFrom ∅ 0 [.data [.words ws], .label (.named "end".toList)], 0⟩,
    assemble?_eq_ok_iff.mpr ⟨_, expandLines_labelBehind hne, ?_, rfl⟩, rfl⟩
  exact
    { sizes_le := hroom
      nodup_names := List.pairwise_singleton _ _
      labels_eq := rfl
      encodeFrom_eq := Statement.encodeFrom_append_eq_ok_iff.mpr
        ⟨ws, encodeFrom_words _ _ ws, [], rfl, List.append_nil ws⟩ }

/-- A word between two labels, and a label behind one word more than there are addresses. -/
theorem label_addresses_two :
    (∃ p, assemble? "a:\n% 0007\nb:".toList = .ok p ∧ p.words = [7] ∧
      p.labels[Label.named "a".toList]? = some 0 ∧ p.labels[Label.named "b".toList]? = some 1) ∧
    ∃ fs stmt, ∃ r : Reading, assemble (labelBehind (List.replicate 65537 0)) = (.error fs, []) ∧
      r.overflow stmt ∈ fs := by
  constructor
  · obtain ⟨p, hp, hwords⟩ := @exists_program_of_words "a:\n% 0007\nb:".toList [7]
      (by decide +kernel)
    have hstmts : Statement.ofSource "a:\n% 0007\nb:".toList =
        [.label (.named "a".toList), .data [.words [7]], .label (.named "b".toList)] := by
      decide +kernel
    have hlabels := (label_addresses "a:\n% 0007\nb:".toList).1 p hp
    refine ⟨p, hp, hwords, ?_, ?_⟩
    · exact (hlabels _ 0).mpr ⟨[], _, [], [7], hstmts, rfl, rfl, hwords, .inl (by decide)⟩
    · exact (hlabels _ 1).mpr ⟨[.label (.named "a".toList), .data [.words [7]]], [], [7], [],
        hstmts, rfl, rfl, hwords, .inl (by decide)⟩
  · have hlength : (List.replicate 65537 (0 : Word)).length = 65537 := List.length_replicate
    have hne : List.replicate 65537 (0 : Word) ≠ [] := List.ne_nil_of_length_eq_add_one hlength
    have hsizes := sizes_labelBehind hne
    obtain ⟨fs, r, stmt, -, -, hreport, -, -, hmem, -⟩ :=
      (label_addresses (labelBehind (List.replicate 65537 0))).2 (by
        rw [hsizes, hlength, addressSpace]
        decide)
    exact ⟨fs, stmt, r, hreport, hmem⟩

/-- As many words as there are addresses, and a label behind them: the number of words before it is
65536, but its address is 0. -/
theorem exists_label_without_address :
    ∃ p us, assemble? (labelBehind (List.replicate 65536 0)) = .ok p ∧
      Statement.ofSource (labelBehind (List.replicate 65536 0)) =
        [.data [.words (List.replicate 65536 0)]] ++ [.label (.named "end".toList)] ∧
      encodeFrom p.labels 0 [.data [.words (List.replicate 65536 0)]] = .ok us ∧
      us.length = 65536 ∧ p.labels[Label.named "end".toList]? = some 0 := by
  have hlength : (List.replicate 65536 (0 : Word)).length = 65536 := List.length_replicate
  have hne : List.replicate 65536 (0 : Word) ≠ [] := List.ne_nil_of_length_eq_add_one hlength
  have hsplit := ofSource_labelBehind hne
  have hstmt := encodeFrom_words
  obtain ⟨p, hp, hwords⟩ := exists_program_labelBehind hne (Nat.le_of_eq hlength)
  generalize List.replicate 65536 (0 : Word) = ws at *
  refine ⟨p, ws, hp, hsplit, hstmt _ _ _, hlength, ?_⟩
  exact (realizes_ofSource hp).getElem?_labels_eq_some_iff.mpr ⟨_, [], ws, [], hsplit,
    hstmt _ _ _, rfl, hwords.trans (List.append_nil ws).symm, .inr ⟨hlength, rfl, rfl⟩⟩

end Behind

end Assembly

end WordMachine
