import WordMachine.Proofs.Comments
import WordMachine.Proofs.Failures
import WordMachine.Proofs.Relocation

/-!
# Where failures point

A failure names a line and has a place. This file shows that the place is on the line: it is the
place of a character that is no white space, whichever part of the assembler has refused the line.

A token stands where it was found, and the words that aliases and calls put in the place of tokens
stand where those stood. To follow a place through all of this would be to go through every reader
once more, but it is known already that no reader looks at places (`Context.expand_moved`). So
tokens may be moved as one likes, and a function of places that moves no token of a line, but moves
all other places to one of them, moves nothing that comes of the line either.

## Main results

* `Context.keepsTo_expand`: what a line comes to stands at the places of its tokens
* `Context.keepsTo_readings`: what lines come to stands on these lines
* `failures_on_their_lines`: and so does every failure
-/

namespace WordMachine

namespace Assembly

/-- A place is that of a character of a line, and not of a space. -/
structure Loc.IsOn (loc : Loc) (line : Nat) (text : List Char) : Prop where
  line_eq : loc.line = line
  one_le_col : 1 ≤ loc.col
  exists_char : ∃ c, text[loc.col - 1]? = some c ∧ Text.isBlank c = false

theorem Loc.IsOn.col_le {loc : Loc} {line : Nat} {text : List Char} (h : loc.IsOn line text) :
    loc.col ≤ text.length := by
  obtain ⟨c, hc, -⟩ := h.exists_char
  obtain ⟨hlt, -⟩ := List.getElem?_eq_some_iff.mp hc
  omega

/-- Whatever an answer has in it stands at places with a property. -/
def Checked.KeepsTo {α : Type} (P : Loc → Prop) : Checked (List (Located α)) → Prop
  | .error e => P e.loc
  | .ok xs => ∀ x ∈ xs, P x.loc

/-! ### Tokens -/

namespace Token

variable {line : Nat} {text : List Char} {tokens : List Token}

/-- A token begins at a character of its line. -/
theorem isOn_of_scan (h : scan line text = .ok tokens) : ∀ tk ∈ tokens, tk.loc.IsOn line text := by
  intro tk htk
  have hword := isWord_of_scan h tk htk
  obtain ⟨out, hout, hlaid⟩ := scan_eq_ok_iff.mp h
  obtain ⟨hline, hcol, hstands⟩ := hlaid.stands tk htk
  have hspace : ' ' ∉ tk.val := fun hmem =>
    absurd (hword.2 ' ' hmem) (by decide)
  obtain ⟨rest, hrest⟩ := hout.covered.prefix_drop hspace hstands
  refine ⟨hline, hcol, ?_⟩
  obtain ⟨c, w, hval⟩ := List.exists_cons_of_ne_nil hword.1
  refine ⟨c, ?_, hword.2 c (hval ▸ List.mem_cons_self)⟩
  rw [← List.head?_drop, ← hrest, hval]
  rfl

/-- An open comment begins at a slash. -/
theorem isOn_of_scan_eq_error {e : Located LineError} (h : scan line text = .error e) :
    e.loc.IsOn line text := by
  obtain ⟨out, rest, houtside, -, rfl⟩ := scan_eq_error_iff.mp h
  obtain ⟨front, rfl, hfront⟩ := houtside.exists_covered
  refine ⟨rfl, Nat.le_add_left 1 _, '/', ?_, rfl⟩
  rw [Nat.add_sub_cancel, ← hfront.length_eq, List.getElem?_append_right (Nat.le_refl _),
    Nat.sub_self]
  rfl

end Token

/-! ### Lines -/

namespace Context

/-- **What a line comes to stands at the places of its tokens.** -/
theorem keepsTo_expand {P : Loc → Prop} (ctx : Context) {tokens : List Token}
    (h : ∀ tk ∈ tokens, P tk.loc) : (ctx.expand tokens).1.KeepsTo P := by
  classical
  rcases tokens with _ | ⟨first, rest⟩
  · rw [expand_nil]
    exact fun x hx => absurd hx List.not_mem_nil
  · -- This moves none of the tokens, and whatever it moves is at the place of a token then.
    let f : Loc → Loc := fun loc => if P loc then loc else first.loc
    have hf : ∀ loc, P (f loc) := by
      intro loc
      by_cases hloc : P loc
      · simp [f, hloc]
      · simpa [f, hloc] using h first List.mem_cons_self
    have htokens : (first :: rest).map (.moved f) = first :: rest := by
      refine List.map_congr_left (fun tk htk => ?_) |>.trans (List.map_id _)
      simp [Located.moved, f, h tk htk]
    have hmoved := ctx.expand_moved f (first :: rest)
    rw [htokens] at hmoved
    rw [hmoved]
    rcases (ctx.expand (first :: rest)).1 with e | stmts
    · exact hf e.loc
    · intro x hx
      obtain ⟨stmt, -, rfl⟩ := List.mem_map.mp hx
      exact hf stmt.loc

theorem keepsTo_expandText (ctx : Context) (line : Nat) (text : List Char) :
    (ctx.expandText line text).1.KeepsTo (·.IsOn line text) := by
  rw [expandText]
  rcases hscan : Token.scan line text with e | tokens
  · exact Token.isOn_of_scan_eq_error hscan
  · exact ctx.keepsTo_expand (Token.isOn_of_scan hscan)

end Context

/-- What a line came to stands at places that have a property, together with the line. -/
def Reading.KeepsTo (P : Nat → List Char → Loc → Prop) (r : Reading) : Prop :=
  r.answer.KeepsTo (P r.line r.source)

/-- All lines come to something that stands on them. -/
theorem Context.keepsTo_readings (ctx : Context) (line : Nat) (texts : List (List Char)) :
    ∀ r ∈ ctx.readings line texts, r.KeepsTo fun line text loc => loc.IsOn line text :=
  forall_mem_readings keepsTo_expandText ctx line texts

/-! ### Failures -/

section Failures

variable {P : Nat → List Char → Loc → Prop} {r : Reading} {rs : List Reading}
  {stmts rest : List (Located Statement)}

namespace Reading.KeepsTo

theorem of_statements (h : r.KeepsTo P) : ∀ stmt ∈ r.statements, P r.line r.source stmt.loc := by
  obtain ⟨line, text, e | stmts⟩ := r
  · exact fun stmt hstmt => absurd hstmt List.not_mem_nil
  · exact h

theorem of_failure? {f : Failure} (h : r.KeepsTo P) (hf : r.failure? = some f) :
    P f.line f.source f.error.loc := by
  obtain ⟨line, text, e | stmts⟩ := r
  · obtain rfl := Option.some.inj hf
    exact h
  · cases hf

theorem cut (h : r.KeepsTo P) (hr : r.answer = .ok (stmts ++ rest)) : (r.cut stmts).KeepsTo P := by
  rw [KeepsTo, hr] at h
  exact fun stmt hstmt => h stmt (List.mem_append_left rest hstmt)

end Reading.KeepsTo

namespace Placed

theorem keepsTo_row {line : Nat} {source : List Char} (address : Nat)
    (h : ∀ stmt ∈ stmts, P line source stmt.loc) :
    ∀ u ∈ row line source address stmts, P u.line u.source u.stmt.loc := by
  induction stmts generalizing address with
  | nil => exact fun u hu => absurd hu List.not_mem_nil
  | cons stmt rest ih =>
    obtain ⟨hstmt, hrest⟩ := List.forall_mem_cons.mp h
    rw [row]
    exact List.forall_mem_cons.mpr ⟨hstmt, ih _ hrest⟩

/-- Units stand where their statements do. -/
theorem keepsTo_ofReadings (address : Nat) (h : ∀ r ∈ rs, r.KeepsTo P) :
    ∀ u ∈ ofReadings address rs, P u.line u.source u.stmt.loc := by
  induction rs generalizing address with
  | nil => exact fun u hu => absurd hu List.not_mem_nil
  | cons r rest ih =>
    obtain ⟨hr, hrest⟩ := List.forall_mem_cons.mp h
    rw [ofReadings]
    exact List.forall_mem_append.mpr ⟨keepsTo_row _ hr.of_statements, ih _ hrest⟩

variable {us : List Placed}

theorem keepsTo_repeats (h : ∀ u ∈ us, P u.line u.source u.stmt.loc) :
    ∀ f ∈ repeats [] us, P f.line f.source f.error.loc := by
  intro f hf
  obtain ⟨front, u, back, name, rfl, -, -, rfl⟩ := exists_of_mem_repeats hf
  exact h u (List.mem_append_right front List.mem_cons_self)

theorem keepsTo_unresolved {labels : LabelMap} (h : ∀ u ∈ us, P u.line u.source u.stmt.loc) :
    ∀ f ∈ unresolved labels us, P f.line f.source f.error.loc := by
  intro f hf
  obtain ⟨u, hu, hf⟩ := List.mem_flatMap.mp hf
  obtain ⟨e, -, rfl⟩ := List.mem_map.mp hf
  exact h u hu

end Placed

theorem keepsTo_failures (h : ∀ r ∈ rs, r.KeepsTo P) :
    ∀ f ∈ rs.filterMap (·.failure?), P f.line f.source f.error.loc := by
  intro f hf
  obtain ⟨r, hr, hf⟩ := List.mem_filterMap.mp hf
  exact (h r hr).of_failure? hf

/-- **All failures stand where something stands that a line has come to.** -/
theorem keepsTo_of_error {source : List Char} {fs : List Failure}
    (hrs : ∀ r ∈ Reading.ofSource source, r.KeepsTo P) (h : assemble? source = .error fs) :
    ∀ f ∈ fs, P f.line f.source f.error.loc := by
  have hunits := Placed.keepsTo_ofReadings 0 hrs
  rcases assemble?_eq_error_cases h with
    ⟨-, front, r, stmts, stmt, hout, rfl⟩ | ⟨-, -, rfl | ⟨-, rfl⟩⟩
  · obtain ⟨back, hsplit⟩ := hout.eq_append
    obtain ⟨rest, hr⟩ := hout.answer_eq
    rw [hsplit] at hrs
    obtain ⟨hfront, hback⟩ := List.forall_mem_append.mp hrs
    obtain ⟨hline, -⟩ := List.forall_mem_cons.mp hback
    have hcut : ∀ r' ∈ front ++ [r.cut stmts], r'.KeepsTo P :=
      List.forall_mem_append.mpr ⟨hfront, List.forall_mem_singleton.mpr (hline.cut hr)⟩
    have hstmt : P r.line r.source stmt.loc := by
      rw [Reading.KeepsTo, hr] at hline
      exact hline stmt (List.mem_append_right stmts List.mem_cons_self)
    exact List.forall_mem_append.mpr ⟨keepsTo_failures hfront, List.forall_mem_cons.mpr
      ⟨hstmt, Placed.keepsTo_repeats (Placed.keepsTo_ofReadings 0 hcut)⟩⟩
  · exact List.forall_mem_append.mpr ⟨keepsTo_failures hrs, Placed.keepsTo_repeats hunits⟩
  · exact Placed.keepsTo_unresolved hunits

end Failures

/-- The number and the text of a reading are those of a line of the source. -/
theorem Reading.getElem?_lines {source : List Char} {r : Reading}
    (hr : r ∈ Reading.ofSource source) :
    1 ≤ r.line ∧ (Text.lines source)[r.line - 1]? = some r.source := by
  have hmem : (r.source, r.line) ∈ (Text.lines source).zipIdx 1 := by
    rw [← Context.zipIdx_readings {} 1]
    exact List.mem_map_of_mem hr
  exact List.mem_zipIdx_iff_le_and_getElem?_sub.mp hmem

/-- **Failures point into their own lines.** A source that is not assembled has at least one
failure. Each of them has the number and the text of a line of the source, and its place is that of
a character of this line, and not of a space. -/
theorem failures_on_their_lines {source : List Char} {fs : List Failure}
    (h : assemble? source = .error fs) :
    fs ≠ [] ∧ ∀ f ∈ fs, 1 ≤ f.line ∧ (Text.lines source)[f.line - 1]? = some f.source ∧
      f.error.loc.line = f.line ∧ 1 ≤ f.error.loc.col ∧ f.error.loc.col ≤ f.source.length ∧
      ∃ c, f.source[f.error.loc.col - 1]? = some c ∧ Text.isBlank c = false := by
  have hne : fs ≠ [] := by
    rcases assemble?_eq_error_cases h with ⟨-, _, _, _, _, -, rfl⟩ | ⟨-, hne, -⟩
    · simp
    · exact hne
  have hrs : ∀ r ∈ Reading.ofSource source, r.KeepsTo fun line text loc =>
      (1 ≤ line ∧ (Text.lines source)[line - 1]? = some text) ∧ loc.IsOn line text := by
    intro r hr
    have hlines := Reading.getElem?_lines hr
    have hkeeps := Context.keepsTo_readings {} 1 (Text.lines source) r hr
    obtain ⟨line, text, e | stmts⟩ := r
    · exact ⟨hlines, hkeeps⟩
    · exact fun stmt hstmt => ⟨hlines, hkeeps stmt hstmt⟩
  refine ⟨hne, fun f hf => ?_⟩
  obtain ⟨⟨hline, hsource⟩, hloc⟩ := keepsTo_of_error hrs h f hf
  exact ⟨hline, hsource, hloc.line_eq, hloc.one_le_col, hloc.col_le, hloc.exists_char⟩

/-- An open comment, an alias that is none, an argument of a call, no statement at all, and a label
that is defined again; and a reference that comes to nothing. -/
theorem failures_on_their_lines_six :
    (∃ fs, assemble? "x:\n copy 1.reg / open\n  $a 1.reg\n1.mem <= f($b)\n\t? y\nx:".toList
        = .error fs ∧
      fs.map (fun f => (f.error.loc.line, f.error.loc.col)) =
        [(2, 13), (3, 3), (4, 7), (5, 2), (6, 1)] ∧
      ∀ f ∈ fs, f.error.loc.line = f.line ∧ f.error.loc.col ≤ f.source.length) ∧
    ∃ fs, assemble? "copy 1.reg 2.reg\n  % q.imm".toList = .error fs ∧
      fs.map (fun f => (f.error.loc.line, f.error.loc.col)) = [(2, 3)] ∧
      ∀ f ∈ fs, f.error.loc.line = f.line ∧ f.error.loc.col ≤ f.source.length := by
  have hlocs {source : List Char} {fs : List Failure} {locs : List (Nat × Nat)}
      (h : assemble? source = .error fs)
      (hfs : fs.map (fun f => (f.error.loc.line, f.error.loc.col)) = locs) :
      ∃ fs, assemble? source = .error fs ∧
        fs.map (fun f => (f.error.loc.line, f.error.loc.col)) = locs ∧
        ∀ f ∈ fs, f.error.loc.line = f.line ∧ f.error.loc.col ≤ f.source.length := by
    refine ⟨fs, h, hfs, fun f hf => ?_⟩
    obtain ⟨-, -, hline, -, hcol, -⟩ := (failures_on_their_lines h).2 f hf
    exact ⟨hline, hcol⟩
  constructor
  · refine hlocs (congrArg Prod.fst (assemble_of_firstFailures (by decide +kernel) ?_)) ?_
    · decide +kernel
    · decide +kernel
  · refine hlocs (assemble?_of_secondFailures (by decide +kernel) ?_ ?_) ?_
    · decide +kernel
    · decide +kernel
    · decide +kernel

end Assembly

end WordMachine
