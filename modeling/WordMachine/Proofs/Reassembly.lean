import WordMachine.Proofs.Fidelity
import WordMachine.Proofs.Written

/-!
# Disassembling and assembling again

Every word stands for an instruction, so every list of words can be written out, one instruction a
line. This file shows that assembling what was written gives the words back. No line defines a label
or refers to one, so a line comes to the same word wherever it stands. The context does change from
line to line, since operations move the aliases that are tracked; but a line without aliases does
not look at them.

## Main results

* `Text.lines_disassembly`: the lines of a disassembly are the written instructions
* `Context.expandLines_written`: the statements of written instructions
* `assemble?_disassembly`: a disassembly is assembled to the words that it was made from
-/

namespace WordMachine

/-- The instructions of words, each written on a line of its own. -/
def disassembly (ws : List Word) : List Char :=
  ws.flatMap fun w => (Inst.decode w).text ++ ['\n']

namespace Text

/-- A line without line feeds and carriage returns in it is cut off as it is. -/
theorem lines_cons {t : List Char} (hfeed : '\n' ∉ t) (hreturn : '\r' ∉ t) (rest : List Char) :
    lines (t ++ '\n' :: rest) = t :: lines rest := by
  have hdrop : dropReturn t = t := by
    rw [dropReturn, if_neg]
    exact fun h => hreturn (List.mem_of_getLast? h)
  obtain ⟨piece, pieces, hpieces⟩ := List.exists_cons_of_ne_nil (List.splitOn_ne_nil '\n' rest)
  simp only [lines, List.splitOn_append_cons_self_of_not_mem hfeed, hpieces,
    List.dropLast_cons_cons, List.map_cons, hdrop, List.getLast?_cons_cons, List.cons_append]

theorem lines_disassembly (ws : List Word) :
    lines (disassembly ws) = ws.map fun w => (Inst.decode w).text := by
  induction ws with
  | nil => rfl
  | cons w ws ih =>
    have hnot (c : Char) (hspace : c ≠ ' ') (hc : Inst.isTextChar c = false) :
        c ∉ (Inst.decode w).text := by
      intro hmem
      rcases Inst.isTextChar_of_mem_text hmem with rfl | htext
      · exact hspace rfl
      · rw [hc] at htext
        cases htext
    rw [disassembly, List.flatMap_cons, List.append_assoc, List.singleton_append,
      lines_cons (hnot '\n' (by decide) rfl) (hnot '\r' (by decide) rfl), List.map_cons]
    exact congrArg _ ih

end Text

namespace Assembly

/-! ### A written instruction as a line -/

/-- A line on which a legal instruction is written comes to that instruction. -/
theorem Context.expandText_text (ctx : Context) (line : Nat) {i : Inst} (hi : i.Legal) :
    ∃ loc next, ctx.expandText line i.text = (.ok [⟨loc, .op i.asWritten⟩], next) := by
  have hvals : (Token.row line 1 i.parts).map (·.val) = i.parts := Token.map_val_row line 1 i.parts
  have hpart : ∀ tk ∈ Token.row line 1 i.parts, Inst.isPart tk.val = true := fun tk htk =>
    Inst.isPart_of_mem_parts (hvals ▸ List.mem_map_of_mem htk)
  have hread := @Inst.readLine_parts _ hi ctx.scopes _ hvals
  rw [expandText]
  rw [Inst.scan_text]
  dsimp only
  rw [expand_of_plain ctx (fun tk htk => Inst.isName_of_isPart (hpart tk htk))
    (fun tk htk => Inst.ne_arrow_of_isPart (hpart tk htk)), statement, hread]
  rw [Inst.parts_eq, Token.row]
  exact ⟨_, _, rfl⟩

/-- Written instructions come to themselves, line by line. -/
theorem Context.expandLines_written (ctx : Context) (line : Nat) {is : List Inst}
    (h : ∀ i ∈ is, i.Legal) :
    ∃ groups, ctx.expandLines line (is.map Inst.text) = .ok groups ∧
      Statement.ofLines groups = is.map (fun i => .op i.asWritten) ∧
      groups.countP isCode = is.length := by
  induction is generalizing ctx line with
  | nil => exact ⟨[], rfl, rfl, rfl⟩
  | cons i is ih =>
    obtain ⟨loc, next, hi⟩ := ctx.expandText_text line (h i List.mem_cons_self)
    obtain ⟨groups, hgroups, hstmts, hcount⟩ :=
      ih next (line + 1) fun j hj => h j (List.mem_cons_of_mem i hj)
    refine ⟨[⟨loc, .op i.asWritten⟩] :: groups, ?_, ?_, ?_⟩
    · rw [List.map_cons, expandLines, hi]
      exact map_eq_ok_iff.mpr ⟨groups, hgroups, rfl⟩
    · rw [Statement.ofLines_cons, hstmts]
      rfl
    · rw [List.countP_cons, hcount]
      rfl

/-! ### Its word -/

/-- A legal instruction is encoded to its word, wherever it stands. -/
theorem Operation.encode_asWritten {i : Inst} (hi : i.Legal) (labels : LabelMap) (address : Word) :
    i.asWritten.encode labels address = .ok (Inst.encode i) := by
  have hinst : i.asWritten.toInst labels address = .ok i :=
    toInst_eq_ok_iff.mpr ⟨i.srcImm, i.dstImm, rfl, hi.srcImm_mem, rfl, hi.dstImm_mem, rfl⟩
  rw [encode, hinst]
  rfl

namespace Statement

variable {is : List Inst}

theorem sizes_written (is : List Inst) :
    sizes (is.map fun i => .op i.asWritten) = is.length := by
  induction is with
  | nil => rfl
  | cons i is ih =>
    rw [List.map_cons, sizes_cons, ih, List.length_cons, Nat.add_comm]
    rfl

theorem names_written (is : List Inst) : names (is.map fun i => .op i.asWritten) = [] := by
  induction is with
  | nil => rfl
  | cons i is ih => rw [List.map_cons, names_op_cons, ih]

theorem labelsFrom_written (labels : LabelMap) (address : Nat) (is : List Inst) :
    labelsFrom labels address (is.map fun i => .op i.asWritten) = labels := by
  induction is generalizing address with
  | nil => rfl
  | cons i is ih =>
    rw [List.map_cons, labelsFrom, ih]
    simp

theorem encodeFrom_written (labels : LabelMap) (address : Nat) (h : ∀ i ∈ is, i.Legal) :
    encodeFrom labels address (is.map fun i => .op i.asWritten) = .ok (is.map Inst.encode) := by
  induction is generalizing address with
  | nil => rfl
  | cons i is ih =>
    have hi := Operation.encode_asWritten (h i List.mem_cons_self) labels (UInt16.ofNat address)
    refine encodeFrom_cons_eq_ok_iff.mpr ⟨[Inst.encode i], ?_, is.map Inst.encode, ?_, rfl⟩
    · exact encode_op_eq_ok_iff.mpr ⟨_, hi, rfl⟩
    · exact ih _ fun j hj => h j (List.mem_cons_of_mem i hj)

end Statement

/-- **Assembling a disassembly gives the program back.** For any words that have room in memory, the
source that has their written instructions as its lines is assembled to these words, with no labels
and as many instructions as words. -/
theorem assemble?_disassembly (ws : List Word) (h : ws.length ≤ addressSpace) :
    assemble? (disassembly ws) = .ok ⟨ws, ∅, ws.length⟩ ∧
    ∀ source, Text.lines source = ws.map (fun w => (Inst.decode w).text) →
      assemble? source = .ok ⟨ws, ∅, ws.length⟩ := by
  have hlines : ∀ source, Text.lines source = ws.map (fun w => (Inst.decode w).text) →
      assemble? source = .ok ⟨ws, ∅, ws.length⟩ := by
    intro source hsource
    have hlegal : ∀ i ∈ ws.map Inst.decode, i.Legal := by
      intro i hi
      obtain ⟨w, -, rfl⟩ := List.mem_map.mp hi
      exact Inst.legal_decode w
    obtain ⟨groups, hgroups, hstmts, hcount⟩ := Context.expandLines_written {} 1 hlegal
    have hwords : (ws.map Inst.decode).map Inst.encode = ws := by
      rw [List.map_map]
      exact (List.map_congr_left fun w _ => Inst.encode_decode w).trans ws.map_id
    refine assemble?_eq_ok_iff.mpr ⟨groups, ?_, ⟨?_, ?_, ?_, ?_⟩, ?_⟩
    · rw [hsource, ← hgroups, List.map_map]
      rfl
    · rw [hstmts, Statement.sizes_written, List.length_map]
      exact h
    · rw [hstmts, Statement.names_written]
      exact List.nodup_nil
    · rw [hstmts, Statement.labelsFrom_written]
    · rw [hstmts, Statement.encodeFrom_written ∅ 0 hlegal, hwords]
    · rw [hcount, List.length_map]
  exact ⟨hlines _ (Text.lines_disassembly ws), hlines⟩

/-- A word with a pop, one with an immediate of zero, which is left out, and one with a number. -/
theorem assemble?_disassembly_three :
    disassembly [0x9D42, 0xE000, 0x6200] =
        ("compute or.op 2.mem 3.reg 0.eff pop\ncompute inv.op 0.reg 0.reg\n"
          ++ "copy 4.val 0.imm 0.reg\n").toList ∧
      assemble? (disassembly [0x9D42, 0xE000, 0x6200]) = .ok ⟨[0x9D42, 0xE000, 0x6200], ∅, 3⟩ :=
  ⟨by decide +kernel, (assemble?_disassembly [0x9D42, 0xE000, 0x6200] (by simp [addressSpace])).1⟩

end Assembly

end WordMachine
