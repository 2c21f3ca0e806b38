import Mathlib.Data.List.Forall2
import WordMachine.Proofs.Selectors

/-!
# The grammar of a line of code

What may stand behind a mnemonic is told here without a reader. Each token says one thing, and
`Part.Spells` lists the ways of spelling it. The parts have two sorts. Operands and immediates are
in their places: the source, its immediate, the destination, its immediate, where the immediates may
be missing. The others are modifiers, each of which may be given once, anywhere. `Forms` puts this
together with the checks that depend on more than one part.

## How the reader meets the grammar

A draft holds the parts that were read so far (`Draft.Holds`), and that settles what it is but for
the tokens that it keeps for complaints. A part is put into it exactly if the parts are still the
beginning of some line that has nothing twice (`Fits`). So a whole row of tokens is drafted exactly
if it fits, with no need to follow which token would have been the first to be refused.

## Main results

* `Part.read?_eq_ok_iff`: what a token says
* `Draft.Holds.add`, `Draft.Holds.exists_add`: one part more
* `readOperation_iff_forms`: the lines of code are those of the grammar, and the order of
  modifiers does not matter
-/

namespace WordMachine

/-! ### Numerals and mnemonics -/

namespace Numeral

theorem read?_eq_none_iff {t : List Char} :
    read? t = none ↔ ∀ f : Form, f.text = t → limit < f.magnitude := by
  constructor
  · rintro h f rfl
    exact Assembly.limit_lt_of_read?_eq_none h
  · intro h
    refine Option.eq_none_iff_forall_ne_some.mpr fun i hi => ?_
    obtain ⟨f, htext, hle, -⟩ := read?_eq_some_iff.mp hi
    exact Nat.not_lt.mpr hle (h f htext)

end Numeral

namespace AluOp

theorem ofName?_eq_some_iff {t : List Char} {op : AluOp} : ofName? t = some op ↔ t = op.name := by
  constructor
  · intro h
    have hfind : all.find? (fun op => op.name == t) = some op := h
    have hname := List.find?_some hfind
    exact (beq_iff_eq.mp hname).symm
  · rintro rfl
    exact ofName?_name op

theorem ofCode?_eq_some_iff {i : Int} {op : AluOp} : ofCode? i = some op ↔ i = op.code := by
  have hlt := op.code_lt
  rw [ofCode?, Option.ite_none_right_eq_some, Option.some.injEq]
  constructor
  · rintro ⟨hrange, rfl⟩
    rw [code_ofBits]
    omega
  · rintro rfl
    exact ⟨by omega, by simp⟩

end AluOp

/-- The operations that have to be given for an opcode. -/
def Opcode.alus : Opcode → List AluOp
  | copy => []
  | compute op => [op]

namespace Instruction

/-- Only a copy from memory to memory has room beside its destination. -/
theorem destinationRange?_ne_none_iff {ι : Type} {i : Instruction ι} :
    i.layout.destinationRange? ≠ none ↔
      i.opcode = .copy ∧ i.src.isMem = true ∧ i.dst.isMem = true := by
  obtain ⟨_ | op, src, dst, srcImm, dstImm, effect, push⟩ := i <;>
    cases hsrc : src.isMem <;> cases hdst : dst.isMem <;>
      simp [layout, cls, Opcode.cls, Layout.of, hsrc, hdst, Layout.destinationRange?]

end Instruction

namespace Assembly

open Numeral (limit)

/-! ### Tokens -/

/-- A token is cut at its last dot, and what stands behind it counts without its case. -/
theorem exists_of_splitKind? {t value kind : List Char} (h : splitKind? t = some (value, kind)) :
    ∃ written, t = value ++ '.' :: written ∧ written.map Char.toLower = kind := by
  obtain ⟨⟨front, back⟩, hcut, hpair⟩ := Option.map_eq_some_iff.mp h
  obtain ⟨rfl, rfl⟩ := Prod.mk.inj hpair
  exact ⟨back, (Text.cutLast?_eq_some_iff.mp hcut).1, rfl⟩

theorem splitKind?_of_kind {written kind : List Char} (hkind : written.map Char.toLower = kind)
    (hdot : '.' ∉ kind) (value : List Char) :
    splitKind? (value ++ '.' :: written) = some (value, kind) := by
  rw [← hkind]
  refine splitKind?_append (fun hmem => hdot ?_) value
  rw [← hkind]
  exact List.mem_map.mpr ⟨'.', hmem, by decide⟩

/-- The ways of spelling a part. A numeral that is too large to be read is not a number, and a name
that is a mnemonic of an operation is not a numeral. -/
inductive Part.Spells (cls : Class) (scopes : Scopes) : List Char → Part → Prop
  | push : Spells cls scopes "push".toList (.push true)
  | pop : Spells cls scopes "pop".toList (.push true)
  /-- Operands and effects are told by their numbers. -/
  | selector {k : SelectorKind} {f : Numeral.Form} {kind : List Char} {part : Part}
    (hkind : kind.map Char.toLower = k.text) (hnonneg : 0 ≤ f.int) (hle : f.magnitude ≤ limit)
    (hpart : k.part? (f.magnitude % 65536) = some part) :
    Spells cls scopes (f.text ++ '.' :: kind) part
  | switch {f : Numeral.Form} {kind : List Char} {on : Bool}
    (hkind : kind.map Char.toLower = "push".toList) (hon : f.int = if on then 1 else 0) :
    Spells cls scopes (f.text ++ '.' :: kind) (.push on)
  | mnemonic {value kind : List Char} {op : AluOp} (hcls : cls = .compute)
    (hkind : kind.map Char.toLower = "op".toList) (hvalue : value.map Char.toLower = op.name) :
    Spells cls scopes (value ++ '.' :: kind) (.alu op)
  | code {f : Numeral.Form} {kind : List Char} {op : AluOp} (hcls : cls = .compute)
    (hkind : kind.map Char.toLower = "op".toList)
    (hname : ∀ other : AluOp, f.text.map Char.toLower ≠ other.name) (hcode : f.int = op.code) :
    Spells cls scopes (f.text ++ '.' :: kind) (.alu op)
  | number {f : Numeral.Form} {kind : List Char} {k : RefKind}
    (hkind : kind.map Char.toLower = k.text) (hle : f.magnitude ≤ limit) :
    Spells cls scopes (f.text ++ '.' :: kind) (.imm (.num f.int))
  /-- The start of the innermost block that is open. -/
  | loop {kind : List Char} {k : RefKind} {scope : Scope} {outer : List Scope}
    (hkind : kind.map Char.toLower = k.text) (hopen : scopes.pending = scope :: outer) :
    Spells cls scopes ("loop".toList ++ '.' :: kind) (.imm (.ref ⟨.blockStart scope.id, k⟩))
  /-- Its end. -/
  | leave {kind : List Char} {k : RefKind} {scope : Scope} {outer : List Scope}
    (hkind : kind.map Char.toLower = k.text) (hopen : scopes.pending = scope :: outer) :
    Spells cls scopes ("break".toList ++ '.' :: kind) (.imm (.ref ⟨.blockEnd scope.id, k⟩))
  | name {value kind : List Char} {k : RefKind} (hkind : kind.map Char.toLower = k.text)
    (hnumber : ∀ f : Numeral.Form, f.text = value → limit < f.magnitude)
    (hloop : value ≠ "loop".toList) (hbreak : value ≠ "break".toList)
    (hname : Label.read? value = .ok (.named value)) :
    Spells cls scopes (value ++ '.' :: kind) (.imm (.ref ⟨.named value, k⟩))

namespace Part

variable {cls : Class} {scopes : Scopes} {t value kind : List Char} {part : Part}

theorem ne_push_of_mem_dot (h : '.' ∈ t) : ¬ (t = "push".toList ∨ t = "pop".toList) := by
  rintro (rfl | rfl) <;> exact absurd h (by decide)

/-- What a token of the kind of a push says. -/
theorem read?_pushKind (hkind : kind.map Char.toLower = "push".toList) :
    Part.read? cls scopes (value ++ '.' :: kind) = match Numeral.read? value with
      | some 0 => .ok (.push false)
      | some 1 => .ok (.push true)
      | _ => .error (.invalidOperand (value ++ '.' :: kind)) := by
  rw [Part.read?, if_neg (ne_push_of_mem_dot (by simp)), splitKind?_of_kind hkind (by decide)]
  rfl

/-- What a token of the kind of an operation says behind `compute`. -/
theorem read?_opKind (hkind : kind.map Char.toLower = "op".toList) :
    Part.read? .compute scopes (value ++ '.' :: kind) =
      match AluOp.ofName? (value.map Char.toLower) <|> (Numeral.read? value).bind AluOp.ofCode? with
      | some op => .ok (.alu op)
      | none => .error (.invalidOperand (value ++ '.' :: kind)) := by
  rw [Part.read?, if_neg (ne_push_of_mem_dot (by simp)), splitKind?_of_kind hkind (by decide)]
  rfl

/-- What a token of the kind of a reference says. -/
theorem read?_immKind {k : RefKind} (hkind : kind.map Char.toLower = k.text) :
    Part.read? cls scopes (value ++ '.' :: kind) = (Imm.read? value k scopes).map .imm :=
  read?_of_refKind (splitKind?_of_kind hkind (by cases k <;> decide) value) k.read?_text

/-- Whatever is spelled is read. -/
theorem Spells.read? (h : Part.Spells cls scopes t part) : Part.read? cls scopes t = .ok part := by
  cases h with
  | push => rfl
  | pop => rfl
  | @selector k f kind _ hkind hnonneg hle hpart =>
    have hread := @SelectorKind.read?_numeral f k kind ⟨⟨1, 1⟩, f.text ++ '.' :: kind⟩ cls scopes
      hkind rfl
    rw [if_pos ⟨hnonneg, hle⟩, hpart] at hread
    exact hread
  | @switch f kind on hkind hon =>
    have hle : f.magnitude ≤ limit := by
      have hint := f.int_eq_or
      have hlimit : 1 < limit := by decide
      cases on <;> simp only [hon, if_true, Bool.false_eq_true, if_false] at hint <;> omega
    rw [read?_pushKind hkind, Numeral.read?_text, if_pos hle, hon]
    cases on <;> rfl
  | @mnemonic value kind op hcls hkind hvalue =>
    subst hcls
    rw [read?_opKind hkind, AluOp.ofName?_eq_some_iff.mpr hvalue]
    rfl
  | @code f kind op hcls hkind hname hcode =>
    subst hcls
    have hnone : AluOp.ofName? (f.text.map Char.toLower) = none :=
      Option.eq_none_iff_forall_ne_some.mpr fun other h =>
        hname other (AluOp.ofName?_eq_some_iff.mp h)
    have hle : f.magnitude ≤ limit := by
      have hint := f.int_eq_or
      have hlt := op.code_lt
      have hlimit : 16 < limit := by decide
      omega
    rw [read?_opKind hkind, hnone, Numeral.read?_text, if_pos hle, Option.bind_some,
      AluOp.ofCode?_eq_some_iff.mpr hcode]
    rfl
  | @number f kind k hkind hle =>
    rw [read?_immKind hkind, Imm.read?_numeral, numeralImm, if_pos hle]
    rfl
  | @loop kind k scope outer hkind hopen =>
    rw [read?_immKind hkind, Imm.read?, show Numeral.read? "loop".toList = none by decide]
    simp only [if_true, Scopes.keeper_start?, Scopes.start?, hopen]
    rfl
  | @leave kind k scope outer hkind hopen =>
    rw [read?_immKind hkind, Imm.read?, show Numeral.read? "break".toList = none by decide]
    simp only [if_neg (show "break".toList ≠ "loop".toList by decide), if_true,
      Scopes.keeper_end?, Scopes.end?, hopen]
    rfl
  | @name value kind k hkind hnumber hloop hbreak hname =>
    rw [read?_immKind hkind, Imm.read?, Numeral.read?_eq_none_iff.mpr hnumber]
    simp only [if_neg hloop, if_neg hbreak, hname]
    rfl

/-- What is selected by a token of one of the kinds is spelled. -/
theorem spells_of_selector {k : SelectorKind} (hkind : kind.map Char.toLower = k.text)
    (h : Part.read? cls scopes (value ++ '.' :: kind) = .ok part)
    (hread : ∃ i, Numeral.read? value = some i) :
    Part.Spells cls scopes (value ++ '.' :: kind) part := by
  obtain ⟨i, hi⟩ := hread
  obtain ⟨f, rfl, hle, rfl⟩ := Numeral.read?_eq_some_iff.mp hi
  have hnumeral := @SelectorKind.read?_numeral f k kind ⟨⟨1, 1⟩, f.text ++ '.' :: kind⟩ cls scopes
    hkind rfl
  rw [h] at hnumeral
  by_cases hselects : 0 ≤ f.int ∧ f.magnitude ≤ limit
  · rw [if_pos hselects] at hnumeral
    rcases hpart : k.part? (f.magnitude % 65536) with _ | selected
    · rw [hpart] at hnumeral
      cases hnumeral
    · rw [hpart] at hnumeral
      obtain rfl := Except.ok.inj hnumeral
      exact .selector hkind hselects.1 hselects.2 hpart
  · rw [if_neg hselects] at hnumeral
    cases hnumeral

/-- Whatever is read as an immediate is spelled. -/
theorem spells_of_imm {k : RefKind} {i : Imm} (hkind : kind.map Char.toLower = k.text)
    (h : Imm.read? value k scopes = .ok i) :
    Part.Spells cls scopes (value ++ '.' :: kind) (.imm i) := by
  rw [Imm.read?] at h
  split at h
  · next v hv =>
    obtain ⟨f, rfl, hle, rfl⟩ := Numeral.read?_eq_some_iff.mp hv
    obtain rfl := Except.ok.inj h
    exact .number hkind hle
  · next hnone =>
    dsimp only at h
    split at h
    · next hloop =>
      subst hloop
      obtain ⟨label, hlabel, h⟩ := bind_eq_ok_iff.mp h
      obtain rfl := pure_eq_ok_iff.mp h
      rw [Scopes.keeper_start?, Scopes.start?] at hlabel
      split at hlabel
      · cases hlabel
      · next scope outer hopen =>
        obtain rfl := Except.ok.inj hlabel
        exact .loop hkind hopen
    · next hloop =>
      split at h
      · next hbreak =>
        subst hbreak
        obtain ⟨label, hlabel, h⟩ := bind_eq_ok_iff.mp h
        obtain rfl := pure_eq_ok_iff.mp h
        rw [Scopes.keeper_end?, Scopes.end?] at hlabel
        split at hlabel
        · cases hlabel
        · next scope outer hopen =>
          obtain rfl := Except.ok.inj hlabel
          exact .leave hkind hopen
      · next hbreak =>
        obtain ⟨label, hlabel, h⟩ := bind_eq_ok_iff.mp h
        obtain rfl := pure_eq_ok_iff.mp h
        obtain rfl := (Label.read?_eq_ok_iff.mp hlabel).1
        exact .name hkind (Numeral.read?_eq_none_iff.mp hnone) hloop hbreak hlabel

/-- Whatever is read behind the mnemonic of a compute as an operation is spelled. -/
theorem spells_of_op (hkind : kind.map Char.toLower = "op".toList)
    (h : Part.read? .compute scopes (value ++ '.' :: kind) = .ok part) :
    Part.Spells .compute scopes (value ++ '.' :: kind) part := by
  rw [read?_opKind hkind] at h
  rcases hname : AluOp.ofName? (value.map Char.toLower) with _ | op
  · rw [hname] at h
    change (match (Numeral.read? value).bind AluOp.ofCode? with
      | some op => Except.ok (Part.alu op)
      | none => _) = _ at h
    rcases hcode : (Numeral.read? value).bind AluOp.ofCode? with _ | op
    · rw [hcode] at h
      cases h
    · rw [hcode] at h
      obtain rfl := Except.ok.inj h
      obtain ⟨i, hi, hop⟩ := Option.bind_eq_some_iff.mp hcode
      obtain ⟨f, rfl, -, rfl⟩ := Numeral.read?_eq_some_iff.mp hi
      refine .code rfl hkind (fun other heq => ?_) (AluOp.ofCode?_eq_some_iff.mp hop)
      rw [AluOp.ofName?_eq_some_iff.mpr heq] at hname
      cases hname
  · rw [hname] at h
    obtain rfl := Except.ok.inj h
    exact .mnemonic rfl hkind (AluOp.ofName?_eq_some_iff.mp hname)

/-- Whatever is read as a push with a number is spelled. -/
theorem spells_of_pushKind (hkind : kind.map Char.toLower = "push".toList)
    (h : Part.read? cls scopes (value ++ '.' :: kind) = .ok part) :
    Part.Spells cls scopes (value ++ '.' :: kind) part := by
  rw [read?_pushKind hkind] at h
  split at h
  · next hread =>
    obtain ⟨f, rfl, -, hint⟩ := Numeral.read?_eq_some_iff.mp hread
    obtain rfl := Except.ok.inj h
    exact .switch hkind hint
  · next hread =>
    obtain ⟨f, rfl, -, hint⟩ := Numeral.read?_eq_some_iff.mp hread
    obtain rfl := Except.ok.inj h
    exact .switch hkind hint
  · cases h

/-- **What a token says.** -/
theorem read?_eq_ok_iff :
    Part.read? cls scopes t = .ok part ↔ Part.Spells cls scopes t part := by
  refine ⟨fun h => ?_, Spells.read?⟩
  rcases hsplit : splitKind? t with _ | ⟨value, kind⟩
  · rw [Part.read?, hsplit] at h
    split at h
    · next hpush =>
      obtain rfl := Except.ok.inj h
      rcases hpush with rfl | rfl
      · exact .push
      · exact .pop
    · cases h
  · obtain ⟨written, rfl, hkind⟩ := exists_of_splitKind? hsplit
    have hread := h
    rw [Part.read?, if_neg (ne_push_of_mem_dot (by simp)), hsplit] at h
    dsimp only at h
    split at h
    · next hoperand =>
      obtain ⟨k, rfl⟩ : ∃ k : SelectorKind, kind = k.text := by
        rcases hoperand with rfl | rfl | rfl
        · exact ⟨.reg, rfl⟩
        · exact ⟨.mem, rfl⟩
        · exact ⟨.val, rfl⟩
      refine spells_of_selector hkind hread ?_
      rcases hnumber : Numeral.read? value with _ | i
      · rw [Operand.read?, hnumber] at h
        cases h
      · exact ⟨i, rfl⟩
    split at h
    · next heff =>
      refine spells_of_selector (k := .eff) (hkind.trans heff) hread ?_
      rcases hnumber : Numeral.read? value with _ | i
      · rw [hnumber] at h
        cases h
      · exact ⟨i, rfl⟩
    split at h
    · next hpush => exact spells_of_pushKind (hkind.trans hpush) hread
    split at h
    · next hop =>
      obtain ⟨hop, rfl⟩ := hop
      exact spells_of_op (hkind.trans hop) hread
    split at h
    · next k hrefKind =>
      obtain ⟨i, hi, rfl⟩ := map_eq_ok_iff.mp h
      exact spells_of_imm (hkind.trans (eq_text_of_read? hrefKind)) hi
    · cases h

/-! ### Rows of parts -/

/-- Whether it matters where among others a part stands. -/
def isPlaced : Part → Bool
  | operand _ => true
  | imm _ => true
  | _ => false

/-- The effect that a part is. -/
def effect? : Part → Option Effect
  | effect e => some e
  | _ => none

/-- Whether a part has a pointer moved. -/
def push? : Part → Option Bool
  | push on => some on
  | _ => none

/-- The operation that a part is. -/
def alu? : Part → Option AluOp
  | alu op => some op
  | _ => none

/-- Two operands in order, each with an immediate behind it or without. -/
def arranged (src : Operand) (srcImm : Option Imm) (dst : Operand) (dstImm : Option Imm) :
    List Part :=
  .operand src :: (srcImm.toList.map .imm ++ .operand dst :: dstImm.toList.map .imm)

end Part

/-- Tokens and what each of them says. -/
def Spelled (cls : Class) (scopes : Scopes) : List Token → List Part → Prop :=
  List.Forall₂ fun tk part => Part.Spells cls scopes tk.val part

/-- The parts of a line of code that comes to the operation. -/
structure Forms (cls : Class) (parts : List Part) (op : Operation) : Prop where
  placed : ∃ src srcImm dst dstImm,
    parts.filter Part.isPlaced = Part.arranged src srcImm dst dstImm ∧
    src.source? = some op.src ∧ op.srcImm = srcImm.getD .zero ∧
    dst.destination? = some op.dst ∧ op.dstImm = dstImm.getD .zero
  effect : ∃ e : Option Effect,
    parts.filterMap Part.effect? = e.toList ∧ op.effect = e.getD .always
  push : ∃ on : Option Bool, parts.filterMap Part.push? = on.toList ∧ op.push = on.getD false
  alu : parts.filterMap Part.alu? = op.opcode.alus
  cls_eq : op.cls = cls
  hasMem_of_push : op.push = true → op.hasMem = true
  dstImm_room : op.dstImm ≠ .zero →
    op.opcode = .copy ∧ op.src.isMem = true ∧ op.dst.isMem = true
  srcImm_mem : ∀ v, op.srcImm = .num v → v ∈ op.layout.sourceRange
  dstImm_mem : ∀ v, op.dstImm = .num v → v ∈ op.layout.destinationRange

/-- Parts that have nothing twice and everything in its place, as far as they go. -/
structure Fits (parts : List Part) : Prop where
  placed : ∃ src srcImm dst dstImm,
    parts.filter Part.isPlaced <+: Part.arranged src srcImm dst dstImm
  effect : (parts.filterMap Part.effect?).length ≤ 1
  push : (parts.filterMap Part.push?).length ≤ 1
  alu : (parts.filterMap Part.alu?).length ≤ 1

variable {cls : Class} {scopes : Scopes} {parts more : List Part} {part : Part}

theorem Fits.of_append (h : Fits (parts ++ more)) : Fits parts := by
  obtain ⟨⟨src, srcImm, dst, dstImm, hplaced⟩, heffect, hpush, halu⟩ := h
  rw [List.filter_append] at hplaced
  rw [List.filterMap_append, List.length_append] at heffect hpush halu
  exact ⟨⟨src, srcImm, dst, dstImm, (List.prefix_append _ _).trans hplaced⟩, by omega, by omega,
    by omega⟩

theorem Forms.fits {op : Operation} (h : Forms cls parts op) : Fits parts := by
  obtain ⟨src, srcImm, dst, dstImm, hplaced, -⟩ := h.placed
  obtain ⟨e, heffect, -⟩ := h.effect
  obtain ⟨on, hpush, -⟩ := h.push
  refine ⟨⟨src, srcImm, dst, dstImm, hplaced ▸ List.prefix_refl _⟩, ?_, ?_, ?_⟩
  · rw [heffect]
    cases e <;> simp
  · rw [hpush]
    cases on <;> simp
  · rw [h.alu]
    cases op.opcode <;> simp [Opcode.alus]

/-! ### Drafts -/

namespace Draft

variable {d e : Draft} {tk : Token}

/-- The operands and immediates of a draft beside the parts that they were. -/
inductive Shape : List Operand → Option Imm → Option Imm → List Part → Prop
  | empty : Shape [] none none []
  | half (src : Operand) (srcImm : Option Imm) :
    Shape [src] srcImm none (.operand src :: srcImm.toList.map .imm)
  | full (src : Operand) (srcImm : Option Imm) (dst : Operand) (dstImm : Option Imm) :
    Shape [src, dst] srcImm dstImm (Part.arranged src srcImm dst dstImm)

namespace Shape

variable {operands : List Operand} {srcImm dstImm : Option Imm} {placed : List Part}

theorem add_operand (h : Shape operands srcImm dstImm placed) (hlength : operands.length ≠ 2)
    (o : Operand) : Shape (operands ++ [o]) srcImm dstImm (placed ++ [.operand o]) := by
  cases h with
  | empty => exact .half o none
  | half src srcImm =>
    have hfull := Shape.full src srcImm o none
    simpa [Part.arranged] using hfull
  | full src srcImm dst dstImm => exact absurd rfl hlength

theorem add_srcImm (h : Shape operands none dstImm placed) (hlength : operands.length = 1)
    (i : Imm) : Shape operands (some i) dstImm (placed ++ [.imm i]) := by
  cases h with
  | half src srcImm => exact .half src (some i)
  | _ => cases hlength

theorem add_dstImm (h : Shape operands srcImm none placed) (hlength : operands.length = 2)
    (i : Imm) : Shape operands srcImm (some i) (placed ++ [.imm i]) := by
  cases h with
  | full src srcImm dst dstImm =>
    have hfull := Shape.full src srcImm dst (some i)
    simpa [Part.arranged] using hfull
  | _ => cases hlength

/-- With two operands there is no room for a third. -/
theorem length_ne_two (h : Shape operands srcImm dstImm placed) {o : Operand}
    {src dst : Operand} {i j : Option Imm}
    (hfits : placed ++ [.operand o] <+: Part.arranged src i dst j) : operands.length ≠ 2 := by
  cases h with
  | full src srcImm dst dstImm =>
    exfalso
    cases srcImm <;> cases dstImm <;> cases i <;> cases j <;>
      simp [Part.arranged, List.cons_prefix_cons] at hfits
  | _ => simp

/-- An immediate that fits has an operand before it that has none yet. -/
theorem imm_cases (h : Shape operands srcImm dstImm placed) {i : Imm} {src dst : Operand}
    {j k : Option Imm} (hfits : placed ++ [.imm i] <+: Part.arranged src j dst k) :
    operands.length = 1 ∧ srcImm = none ∨ operands.length = 2 ∧ dstImm = none := by
  cases h with
  | empty => simp [Part.arranged, List.cons_prefix_cons] at hfits
  | half src srcImm =>
    refine .inl ⟨rfl, ?_⟩
    cases srcImm <;> cases j <;> simp [Part.arranged, List.cons_prefix_cons] at hfits ⊢
  | full src srcImm dst dstImm =>
    refine .inr ⟨rfl, ?_⟩
    cases srcImm <;> cases dstImm <;> cases j <;> cases k <;>
      simp [Part.arranged, List.cons_prefix_cons] at hfits ⊢

end Shape

/-- A draft holds parts. -/
structure Holds (d : Draft) (parts : List Part) : Prop where
  placed : Shape (d.operands.map (·.2)) (d.srcImm.map (·.2)) (d.dstImm.map (·.2))
    (parts.filter Part.isPlaced)
  effect : parts.filterMap Part.effect? = d.effect.toList
  push : parts.filterMap Part.push? = (d.push.map (·.2)).toList
  alu : parts.filterMap Part.alu? = d.alu.toList

theorem holds_nil : ({} : Draft).Holds [] := ⟨.empty, rfl, rfl, rfl⟩

/-- A place that is filled at most once is filled behind nothing. -/
theorem filterMap_append_of_once {α : Type} {f : Part → Option α} {slot : Option α} {a : α}
    (h : parts.filterMap f = slot.toList) (hslot : slot = none) (hpart : f part = some a) :
    (parts ++ [part]).filterMap f = (some a).toList := by
  rw [List.filterMap_append, h, hslot, List.filterMap_cons_some hpart]
  rfl

theorem filterMap_append_of_none {α : Type} {f : Part → Option α} (hpart : f part = none) :
    (parts ++ [part]).filterMap f = parts.filterMap f := by
  rw [List.filterMap_append, List.filterMap_cons_none hpart, List.filterMap_nil, List.append_nil]

theorem filter_append_of_placed (hpart : part.isPlaced = true) :
    (parts ++ [part]).filter Part.isPlaced = parts.filter Part.isPlaced ++ [part] := by
  rw [List.filter_append, List.filter_cons_of_pos hpart, List.filter_nil]

theorem filter_append_of_not_placed (hpart : part.isPlaced = false) :
    (parts ++ [part]).filter Part.isPlaced = parts.filter Part.isPlaced := by
  rw [List.filter_append, List.filter_cons_of_neg (by simp [hpart]), List.filter_nil,
    List.append_nil]

/-- A modifier leaves what is in its place as it is. -/
theorem Shape.modifier {operands : List Operand} {srcImm dstImm : Option Imm}
    (h : Shape operands srcImm dstImm (parts.filter Part.isPlaced))
    (hpart : part.isPlaced = false) :
    Shape operands srcImm dstImm ((parts ++ [part]).filter Part.isPlaced) := by
  rwa [filter_append_of_not_placed hpart]

/-- Operands and immediates leave the modifiers as they are. -/
theorem Holds.of_placed (h : d.Holds parts) (hpart : part.isPlaced = true)
    (hsame : e.effect = d.effect ∧ e.push = d.push ∧ e.alu = d.alu)
    (hplaced : Shape (e.operands.map (·.2)) (e.srcImm.map (·.2)) (e.dstImm.map (·.2))
      (parts.filter Part.isPlaced ++ [part])) : e.Holds (parts ++ [part]) := by
  obtain ⟨heffect, hpush, halu⟩ := hsame
  have hnone : part.effect? = none ∧ part.push? = none ∧ part.alu? = none := by
    cases part <;> first | exact ⟨rfl, rfl, rfl⟩ | cases hpart
  constructor
  · rwa [filter_append_of_placed hpart]
  · rw [filterMap_append_of_none hnone.1, heffect, h.effect]
  · rw [filterMap_append_of_none hnone.2.1, hpush, h.push]
  · rw [filterMap_append_of_none hnone.2.2, halu, h.alu]

/-- A part that is put into a draft is held by it with the others. -/
theorem Holds.add (h : d.Holds parts) (hadd : d.add tk part = .ok e) :
    e.Holds (parts ++ [part]) := by
  have hplaced := h.placed
  have hlength : (d.operands.map (·.2)).length = d.operands.length := List.length_map _
  cases part with
  | operand o =>
    rw [Draft.add] at hadd
    split at hadd
    · cases hadd
    · next htwo =>
      obtain rfl := Except.ok.inj hadd
      refine h.of_placed rfl ⟨rfl, rfl, rfl⟩ ?_
      rw [List.map_append]
      exact hplaced.add_operand (hlength ▸ htwo) o
  | imm i =>
    rw [Draft.add] at hadd
    split at hadd
    · next hone =>
      obtain ⟨slot, hslot, rfl⟩ := map_eq_ok_iff.mp hadd
      obtain ⟨hnone, rfl⟩ := once_eq_ok_iff.mp hslot
      rw [hnone] at hplaced
      refine h.of_placed rfl ⟨rfl, rfl, rfl⟩ ?_
      exact hplaced.add_srcImm (hlength.trans hone) i
    · next htwo =>
      obtain ⟨slot, hslot, rfl⟩ := map_eq_ok_iff.mp hadd
      obtain ⟨hnone, rfl⟩ := once_eq_ok_iff.mp hslot
      rw [hnone] at hplaced
      refine h.of_placed rfl ⟨rfl, rfl, rfl⟩ ?_
      exact hplaced.add_dstImm (hlength.trans htwo) i
    · cases hadd
  | effect x =>
    obtain ⟨slot, hslot, rfl⟩ := map_eq_ok_iff.mp hadd
    obtain ⟨hnone, rfl⟩ := once_eq_ok_iff.mp hslot
    exact ⟨hplaced.modifier rfl, filterMap_append_of_once h.effect hnone rfl,
      (filterMap_append_of_none rfl).trans h.push, (filterMap_append_of_none rfl).trans h.alu⟩
  | push on =>
    obtain ⟨slot, hslot, rfl⟩ := map_eq_ok_iff.mp hadd
    obtain ⟨hnone, rfl⟩ := once_eq_ok_iff.mp hslot
    exact ⟨hplaced.modifier rfl, (filterMap_append_of_none rfl).trans h.effect,
      filterMap_append_of_once h.push (by rw [hnone]; rfl) rfl,
      (filterMap_append_of_none rfl).trans h.alu⟩
  | alu op =>
    obtain ⟨slot, hslot, rfl⟩ := map_eq_ok_iff.mp hadd
    obtain ⟨hnone, rfl⟩ := once_eq_ok_iff.mp hslot
    exact ⟨hplaced.modifier rfl, (filterMap_append_of_none rfl).trans h.effect,
      (filterMap_append_of_none rfl).trans h.push, filterMap_append_of_once h.alu hnone rfl⟩

/-- A place of which parts leave room for one more is empty. -/
theorem eq_none_of_fits {α : Type} {f : Part → Option α} {slot : Option α} {a : α}
    (h : parts.filterMap f = slot.toList) (hpart : f part = some a)
    (hfits : ((parts ++ [part]).filterMap f).length ≤ 1) : slot = none := by
  rw [List.filterMap_append, h, List.filterMap_cons_some hpart, List.length_append] at hfits
  cases slot with
  | none => rfl
  | some b => simp at hfits

/-- A part is put into a draft if it fits. -/
theorem Holds.exists_add (h : d.Holds parts) (hfits : Fits (parts ++ [part])) :
    ∃ e, d.add tk part = .ok e := by
  obtain ⟨hplaced, heffect, hpush, halu⟩ := h
  obtain ⟨⟨src, srcImm, dst, dstImm, hprefix⟩, heffectFits, hpushFits, haluFits⟩ := hfits
  have hlength : (d.operands.map (·.2)).length = d.operands.length := List.length_map _
  cases part with
  | operand o =>
    rw [filter_append_of_placed rfl] at hprefix
    have htwo := hplaced.length_ne_two hprefix
    rw [hlength] at htwo
    exact ⟨_, if_neg htwo⟩
  | imm i =>
    rw [filter_append_of_placed rfl] at hprefix
    rcases hplaced.imm_cases hprefix with ⟨hone, hnone⟩ | ⟨htwo, hnone⟩
    · refine ⟨{ d with srcImm := some (tk, i) }, ?_⟩
      rw [Draft.add, hlength.symm.trans hone, Option.map_eq_none_iff.mp hnone]
      rfl
    · refine ⟨{ d with dstImm := some (tk, i) }, ?_⟩
      rw [Draft.add, hlength.symm.trans htwo, Option.map_eq_none_iff.mp hnone]
      rfl
  | effect x =>
    refine ⟨{ d with effect := some x }, ?_⟩
    rw [Draft.add, eq_none_of_fits heffect rfl heffectFits]
    rfl
  | push on =>
    refine ⟨{ d with push := some (tk, on) }, ?_⟩
    rw [Draft.add, Option.map_eq_none_iff.mp (eq_none_of_fits hpush rfl hpushFits)]
    rfl
  | alu op =>
    refine ⟨{ d with alu := some op }, ?_⟩
    rw [Draft.add, eq_none_of_fits halu rfl haluFits]
    rfl

/-! ### Whole rows -/

variable {tokens : List Token}

/-- What was drafted from tokens are the parts that they say. -/
theorem Holds.read (h : d.Holds parts) (hread : d.read cls scopes tokens = .ok e) :
    ∃ more, Spelled cls scopes tokens more ∧ e.Holds (parts ++ more) := by
  induction tokens generalizing d parts with
  | nil =>
    cases hread
    exact ⟨[], .nil, by rwa [List.append_nil]⟩
  | cons tk rest ih =>
    obtain ⟨part, mid, hpart, hadd, hrest⟩ := read_cons_eq_ok_iff.mp hread
    obtain ⟨more, hmore, hholds⟩ := ih (h.add hadd) hrest
    refine ⟨part :: more, .cons (Part.read?_eq_ok_iff.mp hpart) hmore, ?_⟩
    rwa [List.append_assoc] at hholds

/-- Tokens that say parts which fit are drafted. -/
theorem Holds.exists_read (h : d.Holds parts) (hspelled : Spelled cls scopes tokens more)
    (hfits : Fits (parts ++ more)) :
    ∃ e, d.read cls scopes tokens = .ok e ∧ e.Holds (parts ++ more) := by
  -- The parts held so far grow by the first of the others, and all of them together stay the same.
  induction hspelled generalizing d parts with
  | nil => exact ⟨d, rfl, by rwa [List.append_nil]⟩
  | @cons tk part rest more hpart hmore ih =>
    have happend : parts ++ part :: more = (parts ++ [part]) ++ more := by simp
    rw [happend] at hfits ⊢
    have hnext : ∃ mid, d.add tk part = .ok mid := h.exists_add hfits.of_append
    obtain ⟨mid, hadd⟩ := hnext
    obtain ⟨e, hread, hholds⟩ := ih (h.add hadd) hfits
    exact ⟨e, read_cons_eq_ok_iff.mpr ⟨part, mid, Part.read?_eq_ok_iff.mpr hpart, hadd, hread⟩,
      hholds⟩

theorem Shape.eq_arranged {src dst : Operand} {srcImm dstImm : Option Imm} {placed : List Part}
    (h : Shape [src, dst] srcImm dstImm placed) :
    placed = Part.arranged src srcImm dst dstImm := by
  cases h
  rfl

theorem Shape.eq_of_arranged {operands : List Operand} {src dst : Operand}
    {i j srcImm dstImm : Option Imm}
    (h : Shape operands i j (Part.arranged src srcImm dst dstImm)) :
    operands = [src, dst] ∧ i = srcImm ∧ j = dstImm := by
  generalize hplaced : Part.arranged src srcImm dst dstImm = placed at h
  cases h with
  | empty => cases hplaced
  | half src' i =>
    cases i <;> cases srcImm <;> simp [Part.arranged] at hplaced
  | full src' i dst' j =>
    cases i <;> cases srcImm <;> cases j <;> cases dstImm <;>
      simp_all [Part.arranged]

/-- What is drafted in a place is told from the parts that fill it. -/
theorem eq_of_toList_eq {α : Type} {a b : Option α} (h : a.toList = b.toList) : a = b := by
  rw [← Option.head?_toList (o := a), h, Option.head?_toList]

/-- **A draft describes the operation that is written with its parts.** -/
theorem Holds.describes_iff {op : Operation} (h : d.Holds parts)
    (hcopy : cls = .copy → parts.filterMap Part.alu? = []) :
    d.Describes cls op ↔ Forms cls parts op := by
  obtain ⟨hplaced, heffect, hpush, halu⟩ := h
  constructor
  · intro hd
    obtain ⟨src, dst, hoperands, hsrc, hdst⟩ := hd.operands
    rw [hoperands] at hplaced
    refine ⟨⟨src.2, _, dst.2, _, hplaced.eq_arranged, hsrc, hd.srcImm, hdst, hd.dstImm⟩,
      ⟨_, heffect, hd.effect⟩, ⟨_, hpush, hd.push⟩, ?_, hd.cls_eq, hd.hasMem_of_push,
      fun hne => Instruction.destinationRange?_ne_none_iff.mp (hd.dstImm_room hne),
      hd.srcImm_mem, hd.dstImm_mem⟩
    cases hopcode : op.opcode with
    | copy => exact hcopy (by rw [← hd.cls_eq, Instruction.cls, hopcode]; rfl)
    | compute a =>
      rw [halu, hd.alu a hopcode]
      rfl
  · intro hw
    obtain ⟨src, srcImm, dst, dstImm, harranged, hsrc, hsrcImm, hdst, hdstImm⟩ := hw.placed
    obtain ⟨e, heffect', he⟩ := hw.effect
    obtain ⟨on, hpush', hon⟩ := hw.push
    rw [harranged] at hplaced
    obtain ⟨hoperands, rfl, rfl⟩ := hplaced.eq_of_arranged
    obtain ⟨x, xs, hx, rfl, hxs⟩ := List.map_eq_cons_iff.mp hoperands
    obtain ⟨y, rfl, rfl⟩ := List.map_eq_singleton_iff.mp hxs
    obtain rfl := eq_of_toList_eq (heffect.symm.trans heffect')
    obtain rfl := eq_of_toList_eq (hpush.symm.trans hpush')
    refine ⟨⟨x, y, hx, hsrc, hdst⟩, hw.cls_eq, fun a ha => ?_, hsrcImm, hdstImm, he, hon,
      hw.hasMem_of_push,
      fun hne => Instruction.destinationRange?_ne_none_iff.mpr (hw.dstImm_room hne),
      hw.srcImm_mem, hw.dstImm_mem⟩
    have hone : d.alu.toList = (some a).toList := by
      rw [← halu, hw.alu, ha]
      rfl
    exact eq_of_toList_eq hone

end Draft

/-! ### Lines -/

variable {tokens : List Token}

/-- No token behind the mnemonic of a copy is an operation to compute. -/
theorem Spelled.filterMap_alu (h : Spelled .copy scopes tokens parts) :
    parts.filterMap Part.alu? = [] := by
  induction h with
  | nil => rfl
  | @cons tk part rest parts hpart _ ih =>
    refine (List.filterMap_cons_none ?_).trans ih
    cases part with
    | alu op =>
      generalize tk.val = t at hpart
      cases hpart with
      | @selector k f _ _ _ _ _ hselected => cases k <;> simp [SelectorKind.part?] at hselected
      | mnemonic hcls => cases hcls
      | code hcls => cases hcls
    | _ => rfl

/-- Modifiers do not fill the places of operands and immediates, so they may be told apart first. -/
theorem filterMap_filter_of_placed {α : Type} {f : Part → Option α}
    (hf : ∀ part : Part, part.isPlaced = true → f part = none) (parts : List Part) :
    (parts.filter fun part => !part.isPlaced).filterMap f = parts.filterMap f := by
  rw [List.filterMap_filter]
  refine List.filterMap_congr fun part _ => ?_
  cases hplaced : part.isPlaced with
  | true => exact (hf part hplaced).symm
  | false => rfl

theorem eq_toList_of_perm {α : Type} {l : List α} {a : Option α} (h : l.Perm a.toList) :
    l = a.toList := by
  cases a with
  | none => exact List.perm_nil.mp h
  | some a => exact List.perm_singleton.mp h

/-- **The modifiers of a line may stand in any order and anywhere among its operands.** -/
theorem Forms.congr {op : Operation} {others : List Part} (h : Forms cls parts op)
    (hplaced : others.filter Part.isPlaced = parts.filter Part.isPlaced)
    (hperm : (others.filter fun part => !part.isPlaced).Perm
      (parts.filter fun part => !part.isPlaced)) : Forms cls others op := by
  have hmodifiers {α : Type} {f : Part → Option α} {a : Option α}
      (hf : ∀ part : Part, part.isPlaced = true → f part = none)
      (ha : parts.filterMap f = a.toList) : others.filterMap f = a.toList := by
    have hall := hperm.filterMap f
    rw [filterMap_filter_of_placed hf, filterMap_filter_of_placed hf, ha] at hall
    exact eq_toList_of_perm hall
  have hnone {α : Type} {f : Part → Option α} (ho : ∀ o, f (.operand o) = none)
      (hi : ∀ i, f (.imm i) = none) (part : Part) (hpart : part.isPlaced = true) :
      f part = none := by
    cases part with
    | operand o => exact ho o
    | imm i => exact hi i
    | _ => cases hpart
  obtain ⟨e, heffect, he⟩ := h.effect
  obtain ⟨on, hpush, hon⟩ := h.push
  have halu : parts.filterMap Part.alu? = op.opcode.alus.head?.toList := by
    rw [h.alu]
    cases op.opcode <;> rfl
  refine ⟨hplaced ▸ h.placed, ⟨e, hmodifiers (hnone (fun _ => rfl) fun _ => rfl) heffect, he⟩,
    ⟨on, hmodifiers (hnone (fun _ => rfl) fun _ => rfl) hpush, hon⟩, ?_, h.cls_eq,
    h.hasMem_of_push, h.dstImm_room, h.srcImm_mem, h.dstImm_mem⟩
  rw [hmodifiers (hnone (fun _ => rfl) fun _ => rfl) halu, ← halu, h.alu]

/-- An operation is read from tokens if it is written with what they say. -/
theorem readOperation_eq_ok_iff_exists {mnemonic : Token} {rest : List Token} {op : Operation} :
    readOperation cls scopes mnemonic rest = .ok op ↔
      ∃ parts, Spelled cls scopes rest parts ∧ Forms cls parts op := by
  rw [readOperation_eq_ok_iff]
  constructor
  · rintro ⟨d, hd, hdescribes⟩
    obtain ⟨parts, hspelled, hholds⟩ := Draft.holds_nil.read hd
    refine ⟨parts, hspelled, (hholds.describes_iff ?_).mp hdescribes⟩
    rintro rfl
    exact hspelled.filterMap_alu
  · rintro ⟨parts, hspelled, hwritten⟩
    obtain ⟨d, hd, hholds⟩ := Draft.holds_nil.exists_read hspelled hwritten.fits
    refine ⟨d, hd, (hholds.describes_iff ?_).mpr hwritten⟩
    rintro rfl
    exact hspelled.filterMap_alu

/-- Tokens say nothing else than what they say. -/
theorem Spelled.unique (h : Spelled cls scopes tokens parts) (h' : Spelled cls scopes tokens more) :
    parts = more := by
  induction h generalizing more with
  | nil =>
    cases h'
    rfl
  | cons hpart _ ih =>
    cases h' with
    | cons hpart' hrest' =>
      obtain rfl := Except.ok.inj (hpart.read?.symm.trans hpart'.read?)
      rw [ih hrest']

/-- **The lines of code are those of the grammar.** For any tokens behind a mnemonic there is an
operation exactly if every one of them says something, the operands and immediates among what is
said are a source, at most one immediate, a destination and at most one immediate in this order,
each modifier is given at most once, an operation to compute being given exactly behind `compute`,
and the checks hold: a push has a pointer to move, an immediate beside the destination that is not
zero has room there, and the numbers are in the ranges of the layout. The operation is then made of
what was said, with zero, no push and the effect that always commits for what was not. So two rows
of tokens that say the same but for the places of the modifiers come to the same operation, if
either comes to one. -/
theorem readOperation_iff_forms (cls : Class) (scopes : Scopes) (mnemonic : Token) :
    (∀ rest op, readOperation cls scopes mnemonic rest = .ok op ↔
      ∃ parts, Spelled cls scopes rest parts ∧ Forms cls parts op) ∧
    ∀ rest rest' parts parts', Spelled cls scopes rest parts → Spelled cls scopes rest' parts' →
      parts'.filter Part.isPlaced = parts.filter Part.isPlaced →
      (parts'.filter fun part => !part.isPlaced).Perm (parts.filter fun part => !part.isPlaced) →
      ∀ op, readOperation cls scopes mnemonic rest = .ok op ↔
        readOperation cls scopes mnemonic rest' = .ok op := by
  refine ⟨fun rest op => readOperation_eq_ok_iff_exists, ?_⟩
  intro rest rest' parts parts' hspelled hspelled' hplaced hperm op
  rw [readOperation_eq_ok_iff_exists, readOperation_eq_ok_iff_exists]
  constructor
  · rintro ⟨said, hsaid, hwritten⟩
    obtain rfl := hspelled.unique hsaid
    exact ⟨parts', hspelled', hwritten.congr hplaced hperm⟩
  · rintro ⟨said, hsaid, hwritten⟩
    obtain rfl := hspelled'.unique hsaid
    exact ⟨parts, hspelled, hwritten.congr hplaced.symm hperm.symm⟩

example :
    readOperation .compute ({} : Scopes) ⟨⟨1, 1⟩, "compute".toList⟩
        (lineOf ["0.eff", "1.mem", "pop", "1.imm", "sub.op", "2.reg"]) =
      .ok ⟨.compute .sub, .mem .r1, .reg .r2, .num 1, .num 0, .ifZero, true⟩ := by
  rfl

end Assembly

end WordMachine
