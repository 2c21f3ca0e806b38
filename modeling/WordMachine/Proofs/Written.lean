import WordMachine.Assembly.Expansion
import WordMachine.Proofs.Expansion
import WordMachine.Proofs.Tokens

/-!
# Written instructions

An instruction is written out with everything left out that the assembler fills in. This file shows
that the assembler fills in what was left out, so that a line on which a legal instruction is
written comes to that instruction as an operation.

The written form is a row of parts with spaces between them. The characters of parts are few: none
of them is white space or the mark of a comment, and none can begin an alias or make an arrow. This
is all that is needed for the row to be cut into its parts again and to be taken as it is. What each
part says was settled with the tokens of operations; here only the parts that may be missing call
for cases.

## Main results

* `Inst.isPart_of_mem_parts`: the characters of a written instruction
* `Inst.readLine_parts`: the parts of an instruction are read as the instruction
* `Inst.scan_text`: a line on which an instruction is written is cut into its parts
-/

namespace WordMachine

/-! ### Characters -/

namespace Inst

/-- The characters that instructions are written with: digits, small letters, dot and minus. -/
def isTextChar (c : Char) : Bool :=
  let n := c.toNat
  n == 45 || n == 46 || (48 ≤ n && n ≤ 57) || (65 ≤ n && n ≤ 70) || (97 ≤ n && n ≤ 122)

/-- Whether a text may stand as a part of a written instruction. -/
def isPart (t : List Char) : Bool := !t.isEmpty && t.all isTextChar

theorem isTextChar_of_isDigit {c : Char} (h : Numeral.isDigit c = true) : isTextChar c = true := by
  simp only [Numeral.isDigit, Bool.or_eq_true, Bool.and_eq_true, decide_eq_true_eq] at h
  simp only [isTextChar, Bool.or_eq_true, Bool.and_eq_true, decide_eq_true_eq, beq_iff_eq]
  have hval (a b : Char) : a ≤ b ↔ a.toNat ≤ b.toNat := Iff.rfl
  simp only [hval] at h
  simp at h
  omega

theorem isPlain_of_isTextChar {c : Char} (h : isTextChar c = true) :
    Assembly.Token.isPlain c = true := by
  have hmark (d : Char) (hd : isTextChar d = false) : (c == d) = false := by
    rw [beq_eq_false_iff_ne]
    rintro rfl
    rw [hd] at h
    cases h
  have hblank : Text.isBlank c = false := by
    simp only [isTextChar, Bool.or_eq_true, Bool.and_eq_true, decide_eq_true_eq, beq_iff_eq] at h
    simp only [Text.isBlank, Bool.or_eq_false_iff, Bool.and_eq_false_iff, decide_eq_false_iff_not,
      beq_eq_false_iff_ne]
    omega
  rw [Assembly.Token.isPlain, hblank, hmark '#' rfl, hmark '/' rfl, hmark '\'' rfl]
  rfl

theorem isPart_append {t u : List Char} (ht : isPart t = true) (hu : u.all isTextChar = true) :
    isPart (t ++ u) = true := by
  simp only [isPart, Bool.and_eq_true, List.all_append] at ht ⊢
  refine ⟨?_, ht.2, hu⟩
  cases t with
  | nil => exact absurd ht.1 (by decide)
  | cons c t => rfl

theorem isPart_hex (n : Nat) : isPart (Numeral.hex n) = true := by
  rw [isPart, Bool.and_eq_true, List.all_eq_true]
  refine ⟨by simpa using Numeral.hex_ne_nil n, fun c hc => ?_⟩
  exact isTextChar_of_isDigit (List.all_eq_true.mp (Numeral.value_hex n).1 c hc)

theorem isPart_short (v : Int) : isPart (Numeral.short v) = true := by
  have hhex : (Numeral.hex v.natAbs).all isTextChar = true :=
    (Bool.and_eq_true .. ▸ isPart_hex v.natAbs).2
  have hdigits : isPart (if v.natAbs < 10 then Numeral.hex v.natAbs
      else '0' :: 'x' :: Numeral.hex v.natAbs) = true := by
    split
    · exact isPart_hex v.natAbs
    · exact isPart_append (t := "0x".toList) (by decide) hhex
  unfold Numeral.short
  dsimp only
  split
  · exact isPart_append (t := "-".toList) (by decide) (Bool.and_eq_true .. ▸ hdigits).2
  · exact hdigits

/-- Every part of a written instruction is made of such characters. -/
theorem isPart_of_mem_parts {i : Inst} {t : List Char} (h : t ∈ i.parts) : isPart t = true := by
  simp only [parts, List.mem_append, List.mem_ite_nil_right, List.mem_singleton] at h
  rcases h with (((((h | rfl) | ⟨-, rfl⟩) | rfl) | ⟨-, rfl⟩) | ⟨-, rfl⟩) | ⟨-, rfl⟩
  · rcases hop : i.opcode with _ | op <;> rw [hop] at h
    · obtain rfl := List.mem_singleton.mp h
      decide
    · simp only [List.mem_cons, List.not_mem_nil, or_false] at h
      rcases h with rfl | rfl
      · decide
      · cases op <;> decide
  · rcases i.src with _ | (_ | _ | _) | _ | (_ | _ | _) <;> decide
  · exact isPart_append (isPart_short i.srcImm) (by decide)
  · rcases i.dst with _ | (_ | _ | _) | _ | (_ | _ | _) <;> decide
  · exact isPart_append (isPart_short i.dstImm) (by decide)
  · cases i.effect <;> decide
  · split <;> decide

/-! ### The parts that are there -/

/-- An instruction as an operation. -/
def asWritten (i : Inst) : Assembly.Operation :=
  { i with srcImm := .num i.srcImm, dstImm := .num i.dstImm }

/-- The parts of a written instruction behind its mnemonic. -/
def body (i : Inst) : List (List Char) :=
  (match i.opcode with
    | .copy => []
    | .compute op => [op.name ++ ".op".toList])
  ++ (i.src.text :: ((if i.srcImm ≠ 0 ∨ i.src = .imm then [Numeral.short i.srcImm ++ ".imm".toList]
      else [])
  ++ (i.dst.text :: ((if i.dstImm ≠ 0 then [Numeral.short i.dstImm ++ ".imm".toList] else [])
  ++ ((if i.effect ≠ .always then [i.effect.text] else [])
  ++ (if i.push then [if i.isPop then "pop".toList else "push".toList] else []))))))

end Inst

namespace Assembly

/-- A part that is there under a condition is a piece that may be left out. -/
theorem exists_piece {α : Type} {ts : List Token} {c : Prop} [Decidable c] {t : List Char} (a : α)
    (h : ts.map (·.val) = if c then [t] else []) :
    ∃ piece : Option (Token × α), ts = Draft.tokens piece ∧
      piece.map (·.2) = (if c then some a else none) ∧
      ∀ x ∈ piece, x.1.val = t ∧ x.2 = a ∧ c := by
  by_cases hc : c
  · rw [if_pos hc] at h
    obtain ⟨tk, rfl, rfl⟩ := List.map_eq_singleton_iff.mp h
    exact ⟨some (tk, a), rfl, by rw [if_pos hc]; rfl, by rintro x ⟨⟩; exact ⟨rfl, rfl, hc⟩⟩
  · rw [if_neg hc] at h
    obtain rfl := List.map_eq_nil_iff.mp h
    exact ⟨none, rfl, by rw [if_neg hc]; rfl, by simp⟩

/-- A piece is as good as written if what fills its place otherwise is the same. -/
theorem getD_piece {α : Type} {c : Prop} [Decidable c] {a b : α} (h : ¬ c → a = b) :
    (if c then some a else none).getD b = a := by
  split
  · rfl
  · next hc => exact (h hc).symm

end Assembly

namespace Inst

theorem parts_eq (i : Inst) : i.parts = Assembly.mnemonic i.cls :: i.body := by
  obtain ⟨opcode, src, dst, srcImm, dstImm, effect, push⟩ := i
  cases opcode <;> simp only [parts, body, List.append_assoc] <;> rfl

/-! ### Reading the parts -/

open Assembly

theorem natAbs_le_of_mem_sourceRange {c : Class} {src : Source} {dst : Destination} {v : Int}
    (h : v ∈ (Layout.of c src dst).sourceRange) : v.natAbs ≤ Numeral.limit := by
  unfold Layout.of at h
  split at h <;>
    simp only [Layout.sourceRange, Range.ofBits, Range.mem_iff, Word.patterns, if_true,
      Bool.false_eq_true, if_false] at h <;>
    rw [Numeral.limit] <;> omega

theorem natAbs_le_of_mem_destinationRange {c : Class} {src : Source} {dst : Destination} {v : Int}
    (h : v ∈ (Layout.of c src dst).destinationRange) : v.natAbs ≤ Numeral.limit := by
  unfold Layout.of at h
  split at h <;>
    simp only [Layout.destinationRange, Layout.destinationRange?, Option.getD_none,
      Option.getD_some, Range.zero, Range.ofBits, Range.mem_iff, Word.patterns,
      Bool.false_eq_true, if_false] at h <;>
    rw [Numeral.limit] <;> omega

theorem read?_short {cls : Class} {scopes : Scopes} {v : Int} (h : v.natAbs ≤ Numeral.limit) :
    Part.read? cls scopes (Numeral.short v ++ ".imm".toList) = .ok (.imm (.num v)) :=
  Part.read?_numericImm ((numericImm?_append _).trans (Numeral.read?_short h))

/-- The token of the operation to compute, where there is one. -/
theorem exists_alu {o : Opcode} {ts : List Token}
    (h : ts.map (·.val) = match o with
      | .copy => []
      | .compute op => [op.name ++ ".op".toList]) :
    ∃ piece : Option (Token × AluOp), ts = Draft.tokens piece ∧
      (∀ a, o = .compute a → piece.map (·.2) = some a) ∧
      ∀ x ∈ piece, x.1.val = x.2.name ++ ".op".toList ∧ o.cls = .compute := by
  cases o with
  | copy =>
    obtain rfl := List.map_eq_nil_iff.mp h
    exact ⟨none, rfl, by simp, by simp⟩
  | compute op =>
    obtain ⟨tk, rfl, htk⟩ := List.map_eq_singleton_iff.mp h
    refine ⟨some (tk, op), rfl, ?_, ?_⟩
    · rintro a ⟨⟩
      rfl
    · rintro x ⟨⟩
      exact ⟨htk, rfl⟩

/-- A draft describes a legal instruction if it has what is written, and nothing where that is left
out. -/
theorem describes_asWritten {i : Inst} (hi : i.Legal) {d : Draft} {src dst : Token}
    (hoperands : d.operands = [(src, .ofSource i.src), (dst, .ofDestination i.dst)])
    (halu : ∀ a, i.opcode = .compute a → d.alu = some a)
    (hsrcImm : d.srcImm.map (·.2) =
      if i.srcImm ≠ 0 ∨ i.src = .imm then some (Imm.num i.srcImm) else none)
    (hdstImm : d.dstImm.map (·.2) = if i.dstImm ≠ 0 then some (Imm.num i.dstImm) else none)
    (heffect : d.effect = if i.effect ≠ .always then some i.effect else none)
    (hpush : d.push.map (·.2) = if i.push then some true else none) :
    d.Describes i.cls i.asWritten where
  operands := ⟨_, _, hoperands, Operand.source?_ofSource i.src,
    Operand.destination?_ofDestination i.dst⟩
  cls_eq := rfl
  alu := halu
  srcImm := by
    rw [hsrcImm, getD_piece]
    · rfl
    · intro hzero
      rw [Classical.not_not.mp (not_or.mp hzero).1]
      rfl
  dstImm := by
    rw [hdstImm, getD_piece]
    · rfl
    · intro hzero
      rw [Classical.not_not.mp hzero]
      rfl
  effect := by
    rw [heffect, getD_piece]
    · rfl
    · exact Classical.not_not.mp
  push := by
    rw [hpush]
    cases hp : i.push <;> exact hp
  hasMem_of_push := hi.hasMem_of_push
  dstImm_room := by
    -- Without room the immediate is zero, and a zero is not written.
    intro hne hnone
    have hmem : i.dstImm ∈ i.layout.destinationRange := hi.dstImm_mem
    rw [Layout.destinationRange, show i.layout.destinationRange? = none from hnone] at hmem
    exact hne (congrArg Imm.num (Range.mem_zero.mp hmem))
  srcImm_mem := by
    rintro v ⟨⟩
    exact hi.srcImm_mem
  dstImm_mem := by
    rintro v ⟨⟩
    exact hi.dstImm_mem

/-- What is behind the mnemonic of a legal instruction is read as the instruction. -/
theorem readOperation_body {i : Inst} (hi : i.Legal) {scopes : Scopes} (first : Token)
    {rest : List Token} (h : rest.map (·.val) = i.body) :
    readOperation i.cls scopes first rest = .ok i.asWritten := by
  obtain ⟨ts, us, rfl, halu, h⟩ := List.map_eq_append_iff.mp h
  obtain ⟨src, us, rfl, hsrc, h⟩ := List.map_eq_cons_iff.mp h
  obtain ⟨vs, us, rfl, hsrcImm, h⟩ := List.map_eq_append_iff.mp h
  obtain ⟨dst, us, rfl, hdst, h⟩ := List.map_eq_cons_iff.mp h
  obtain ⟨ws, us, rfl, hdstImm, h⟩ := List.map_eq_append_iff.mp h
  obtain ⟨xs, ys, rfl, heffect, hpush⟩ := List.map_eq_append_iff.mp h
  obtain ⟨alu, rfl, halu, haluPart⟩ := exists_alu halu
  obtain ⟨srcImm, rfl, hsrcImm, hsrcPart⟩ := exists_piece (Imm.num i.srcImm) hsrcImm
  obtain ⟨dstImm, rfl, hdstImm, hdstPart⟩ := exists_piece (Imm.num i.dstImm) hdstImm
  obtain ⟨effect, rfl, heffect, heffectPart⟩ := exists_piece i.effect heffect
  obtain ⟨push, rfl, hpush, hpushPart⟩ := exists_piece true hpush
  refine readOperation_eq_ok_iff.mpr ⟨_, Draft.read_written alu (src, .ofSource i.src) srcImm
    (dst, .ofDestination i.dst) dstImm effect push ?_ ?_ ?_ ?_ ?_ ?_ ?_, ?_⟩
  · intro x hx
    obtain ⟨hval, hcls⟩ := haluPart x hx
    rw [hval, show i.cls = .compute from hcls]
    exact Part.read?_alu x.2
  · exact hsrc ▸ Part.read?_source i.src
  · intro x hx
    obtain ⟨hval, hnum, -⟩ := hsrcPart x hx
    rw [hval, hnum]
    exact read?_short (natAbs_le_of_mem_sourceRange hi.srcImm_mem)
  · exact hdst ▸ Part.read?_destination i.dst
  · intro x hx
    obtain ⟨hval, hnum, -⟩ := hdstPart x hx
    rw [hval, hnum]
    exact read?_short (natAbs_le_of_mem_destinationRange hi.dstImm_mem)
  · intro x hx
    obtain ⟨hval, heff, -⟩ := heffectPart x hx
    rw [hval, heff]
    exact Part.read?_effect i.effect
  · intro x hx
    obtain ⟨hval, hon, -⟩ := hpushPart x hx
    rw [hval, hon]
    split <;> rfl
  · exact describes_asWritten hi rfl halu hsrcImm hdstImm heffect hpush

/-- **The parts of a legal instruction are read as the instruction.** -/
theorem readLine_parts {i : Inst} (hi : i.Legal) {scopes : Scopes} {tokens : List Token}
    (h : tokens.map (·.val) = i.parts) :
    readLine scopes tokens = .ok (some (.op i.asWritten), scopes) := by
  rw [parts_eq] at h
  obtain ⟨first, rest, rfl, hfirst, hrest⟩ := List.map_eq_cons_iff.mp h
  rw [readLine_mnemonic hfirst, readOperation_body hi first hrest]
  rfl

/-! ### The characters of the whole -/

theorem mem_unwords {c : Char} {ts : List (List Char)} (h : c ∈ Text.unwords ts) :
    c = ' ' ∨ ∃ t ∈ ts, c ∈ t := by
  rw [Text.unwords, List.intercalate, List.mem_flatten] at h
  obtain ⟨t, ht, hc⟩ := h
  induction ts with
  | nil => cases ht
  | cons u us ih =>
    cases us with
    | nil =>
      obtain rfl := List.mem_singleton.mp ht
      exact Or.inr ⟨t, List.mem_cons_self, hc⟩
    | cons v vs =>
      rw [List.intersperse_cons_cons, List.mem_cons, List.mem_cons] at ht
      rcases ht with rfl | rfl | ht
      · exact Or.inr ⟨t, List.mem_cons_self, hc⟩
      · exact Or.inl (List.mem_singleton.mp hc)
      · rcases ih ht with hspace | ⟨w, hw, hcw⟩
        · exact Or.inl hspace
        · exact Or.inr ⟨w, List.mem_cons_of_mem u hw, hcw⟩

theorem isTextChar_of_mem_text {i : Inst} {c : Char} (h : c ∈ i.text) :
    c = ' ' ∨ isTextChar c = true := by
  rcases mem_unwords h with hspace | ⟨t, ht, hc⟩
  · exact Or.inl hspace
  · have hpart := isPart_of_mem_parts ht
    rw [isPart, Bool.and_eq_true] at hpart
    exact Or.inr (List.all_eq_true.mp hpart.2 c hc)

/-- The tokens of a written instruction are its parts. -/
theorem scan_text (i : Inst) (line : Nat) :
    Token.scan line i.text = .ok (Token.row line 1 i.parts) := by
  refine Token.scan_unwords (fun t ht => ?_) (fun t ht c hc => ?_)
  · have hpart := isPart_of_mem_parts ht
    rintro rfl
    cases hpart
  · have hpart := isPart_of_mem_parts ht
    rw [isPart, Bool.and_eq_true] at hpart
    exact isPlain_of_isTextChar (List.all_eq_true.mp hpart.2 c hc)

/-- A part begins no alias. -/
theorem isName_of_isPart {t : List Char} (h : isPart t = true) : Alias.isName t = false := by
  rw [isPart, Bool.and_eq_true] at h
  cases t with
  | nil => rfl
  | cons c t =>
    have hc := (List.all_eq_true.mp h.2) c List.mem_cons_self
    rw [Alias.isName, Bool.or_eq_false_iff, List.head?_cons, beq_eq_false_iff_ne,
      beq_eq_false_iff_ne]
    refine ⟨?_, ?_⟩ <;> rintro ⟨⟩ <;> cases hc

/-- A part is no arrow. -/
theorem ne_arrow_of_isPart {t : List Char} (h : isPart t = true) : t ≠ Call.arrow := by
  rintro rfl
  cases h

end Inst

end WordMachine
