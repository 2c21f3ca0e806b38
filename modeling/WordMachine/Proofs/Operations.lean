import WordMachine.Assembly.Line
import WordMachine.Proofs.Checked
import WordMachine.Proofs.Codec

/-!
# Reading an operation

What an operation is read from is a row of tokens, and what it is checked against is the layout of
its class and operands. The two halves are taken apart here. `Draft.complete_eq_ok_iff` states the
checks as the fields of one structure, `Draft.Describes`, so that nothing later has to follow their
order. `Draft.read_written` says what is drafted from the tokens of an operation in their usual
order, whatever each of them is spelled like.

The usual order is the one in which an instruction is written out, and also the one in which the
lines of a call are made.

## Main results

* `Numeral.read?_short`: the immediates of a written instruction are read back
* `Draft.complete_eq_ok_iff`: which drafts are completed, and to what
* `Draft.read_written`: what is drafted from tokens in the usual order
-/

namespace WordMachine

/-! ### Immediates without a token -/

namespace Layout

theorem zero_mem_sourceRange (c : Class) (src : Source) (dst : Destination) :
    (0 : Int) ∈ (of c src dst).sourceRange := by
  unfold of
  split <;> simp [sourceRange, Range.ofBits, Range.mem_iff, Word.patterns]

theorem zero_mem_destinationRange (c : Class) (src : Source) (dst : Destination) :
    (0 : Int) ∈ (of c src dst).destinationRange := by
  unfold of
  split <;>
    simp [destinationRange, destinationRange?, Range.ofBits, Range.zero, Range.mem_iff,
      Word.patterns]

end Layout

/-! ### Numerals -/

namespace Numeral

theorem readMagnitude?_prefixed {n : Nat} (h : n ≤ limit) :
    readMagnitude? ('0' :: 'x' :: hex n) = some n := by
  have hv := value_hex n
  have hr : readDigits? 0 (hex n) = some n :=
    (readDigits?_eq_some_iff (Nat.zero_le _)).mpr ⟨hv.1, hv.2, h⟩
  simp [readMagnitude?, hr, hex_ne_nil]

theorem read?_of_magnitude {t : List Char} {n : Nat} (h : readMagnitude? t = some n)
    (hneg : ∀ rest, t ≠ '-' :: rest) : read? t = some (n : Int) := by
  unfold read?
  split
  · next rest => exact absurd rfl (hneg rest)
  · rw [h]
    rfl

/-- An immediate of a written instruction is read back, with its prefix or without. -/
theorem read?_short {i : Int} (h : i.natAbs ≤ limit) : read? (short i) = some i := by
  have hdigits : readMagnitude? (if i.natAbs < 10 then hex i.natAbs
      else '0' :: 'x' :: hex i.natAbs) = some i.natAbs := by
    split
    · exact readMagnitude?_hex h
    · exact readMagnitude?_prefixed h
  unfold short
  dsimp only
  split
  · next hneg =>
    simp only [read?, hdigits, bind, pure, Option.bind_some, Option.map_some, Option.some.injEq]
    omega
  · next hneg =>
    rw [read?_of_magnitude hdigits, Option.some.injEq]
    · omega
    · intro rest
      split
      · exact hex_ne_minus _ _
      · simp

theorem readMagnitude?_le {t : List Char} {n : Nat} (h : readMagnitude? t = some n) :
    n ≤ limit := by
  simp only [readMagnitude?, Option.ite_none_left_eq_some] at h
  exact ((readDigits?_eq_some_iff (Nat.zero_le _)).mp h.2).2.2

/-- Whatever is read as a number is within the limit. -/
theorem natAbs_le_of_read? {t : List Char} {i : Int} (h : read? t = some i) :
    i.natAbs ≤ limit := by
  unfold read? at h
  split at h
  · next rest =>
    rcases hm : readMagnitude? rest with _ | n
    · rw [hm] at h
      cases h
    · rw [hm] at h
      have hle := readMagnitude?_le hm
      obtain rfl : -(n : Int) = i := Option.some.inj h
      omega
  · obtain ⟨n, hn, rfl⟩ := Option.map_eq_some_iff.mp h
    exact readMagnitude?_le hn

end Numeral

namespace Assembly

/-! ### Single tokens -/

theorem splitKind?_append {kind : List Char} (h : '.' ∉ kind) (value : List Char) :
    splitKind? (value ++ '.' :: kind) = some (value, kind.map Char.toLower) := by
  rw [splitKind?, Text.cutLast?_eq_some_iff.mpr ⟨rfl, h⟩, Option.map_some]

theorem numericImm?_append (value : List Char) :
    numericImm? (value ++ ".imm".toList) = Numeral.read? value := by
  have h := @splitKind?_append "imm".toList (by decide) value
  rw [numericImm?, show value ++ ".imm".toList = value ++ '.' :: "imm".toList from rfl, h]
  rfl

theorem numericImm?_immText {i : Int} (h : i.natAbs ≤ Numeral.limit) :
    numericImm? (immText i) = some i :=
  (numericImm?_append _).trans (Numeral.read?_signed h)

theorem numericImm?_eq_some_iff {t : List Char} {k : Int} :
    numericImm? t = some k ↔
      ∃ value, splitKind? t = some (value, "imm".toList) ∧ Numeral.read? value = some k := by
  rw [numericImm?]
  rcases splitKind? t with _ | ⟨value, kind⟩
  · simp
  · by_cases hkind : kind = "imm".toList <;> grind

/-- The value of a token that is an immediate, and how it counts. -/
def immediate? (t : List Char) : Option (List Char × RefKind) :=
  (splitKind? t).bind fun (value, kind) => (RefKind.read? kind).map fun k => (value, k)

namespace Operand

/-- A source as an operand. -/
def ofSource : Source → Operand
  | .pc => pc
  | .mem r => mem r
  | .imm => val
  | .reg r => reg r

/-- A destination as an operand. -/
def ofDestination : Destination → Operand
  | .pc => pc
  | .mem r => mem r
  | .control => control
  | .reg r => reg r

@[simp] theorem source?_ofSource (s : Source) : (ofSource s).source? = some s := by
  cases s <;> rfl

@[simp] theorem destination?_ofDestination (d : Destination) :
    (ofDestination d).destination? = some d := by
  cases d <;> rfl

end Operand

namespace Part

variable {cls : Class} {scopes : Scopes}

theorem read?_source (s : Source) :
    Part.read? cls scopes s.text = .ok (.operand (.ofSource s)) := by
  rcases s with _ | (_ | _ | _) | _ | (_ | _ | _) <;> rfl

theorem read?_destination (d : Destination) :
    Part.read? cls scopes d.text = .ok (.operand (.ofDestination d)) := by
  rcases d with _ | (_ | _ | _) | _ | (_ | _ | _) <;> rfl

theorem read?_effect (e : Effect) : Part.read? cls scopes e.text = .ok (.effect e) := by
  cases e <;> rfl

theorem read?_alu (op : AluOp) :
    Part.read? .compute scopes (op.name ++ ".op".toList) = .ok (.alu op) := by
  cases op <;> rfl

/-- A token with the kind of a reference is an immediate, and nothing else can be wrong with it. -/
theorem read?_of_refKind {t value kind : List Char} {k : RefKind}
    (ht : splitKind? t = some (value, kind)) (hk : RefKind.read? kind = some k) :
    Part.read? cls scopes t = (Imm.read? value k scopes).map .imm := by
  have hpush : ¬ (t = "push".toList ∨ t = "pop".toList) := by
    rintro (rfl | rfl) <;> cases ht
  have hkind : kind = "imm".toList ∨ kind = "disp".toList := by
    rw [RefKind.read?] at hk
    split at hk
    · next h => exact Or.inl h
    · split at hk
      · next h => exact Or.inr h
      · cases hk
  rw [Part.read?, if_neg hpush, ht]
  rcases hkind with rfl | rfl <;> cases hk <;> rfl

theorem read?_of_immediate {t value : List Char} {k : RefKind}
    (h : immediate? t = some (value, k)) :
    Part.read? cls scopes t = (Imm.read? value k scopes).map .imm := by
  obtain ⟨⟨value', kind⟩, ht, h⟩ := Option.bind_eq_some_iff.mp h
  obtain ⟨k', hk, hpair⟩ := Option.map_eq_some_iff.mp h
  obtain ⟨rfl, rfl⟩ := Prod.mk.inj hpair
  exact read?_of_refKind ht hk

theorem read?_numericImm {t : List Char} {v : Int} (h : numericImm? t = some v) :
    Part.read? cls scopes t = .ok (.imm (.num v)) := by
  obtain ⟨value, ht, hv⟩ := numericImm?_eq_some_iff.mp h
  rw [read?_of_refKind ht (k := .absolute) rfl, Imm.read?, hv]
  rfl

end Part

/-! ### Checking a draft -/

namespace Draft

/-- A draft with everything in it that makes it the operation. -/
structure Describes (d : Draft) (cls : Class) (op : Operation) : Prop where
  operands : ∃ src dst, d.operands = [src, dst] ∧ src.2.source? = some op.src ∧
    dst.2.destination? = some op.dst
  cls_eq : op.cls = cls
  alu : ∀ a, op.opcode = .compute a → d.alu = some a
  srcImm : op.srcImm = (d.srcImm.map (·.2)).getD .zero
  dstImm : op.dstImm = (d.dstImm.map (·.2)).getD .zero
  effect : op.effect = d.effect.getD .always
  push : op.push = (d.push.map (·.2)).getD false
  hasMem_of_push : op.push = true → op.hasMem = true
  dstImm_room : op.dstImm ≠ .zero → op.layout.destinationRange? ≠ none
  srcImm_mem : ∀ v, op.srcImm = .num v → v ∈ op.layout.sourceRange
  dstImm_mem : ∀ v, op.dstImm = .num v → v ∈ op.layout.destinationRange

theorem Describes.opcode_eq_copy {d : Draft} {op : Operation} (h : d.Describes .copy op) :
    op.opcode = .copy := by
  have hcls := h.cls_eq
  rw [Instruction.cls] at hcls
  cases hopcode : op.opcode with
  | copy => rfl
  | compute alu =>
    rw [hopcode] at hcls
    cases hcls

theorem checkImm_eq_ok_iff {range : Range} {imm : Option (Token × Imm)} {u : Unit}
    (h0 : (0 : Int) ∈ range) :
    checkImm range imm = .ok u ↔ ∀ v, (imm.map (·.2)).getD .zero = .num v → v ∈ range := by
  rcases imm with _ | ⟨tk, v | r⟩
  · simpa [checkImm, Imm.zero] using h0
  · simp only [checkImm, at?_eq_ok_iff, map_eq_ok_iff, checkRange_eq_ok_iff]
    simp
  · simp [checkImm]

theorem sides_eq_ok_iff {d : Draft} {mnemonic : Token} {p : (Token × Operand) × (Token × Operand)} :
    d.sides mnemonic = .ok p ↔ d.operands = [p.1, p.2] := by
  obtain ⟨src, dst⟩ := p
  rw [sides]
  split <;> simp_all

theorem opcode_eq_ok_iff {d : Draft} {cls : Class} {mnemonic : Token} {o : Opcode} :
    d.opcode cls mnemonic = .ok o ↔ o.cls = cls ∧ ∀ a, o = .compute a → d.alu = some a := by
  unfold opcode
  cases cls <;> rcases d.alu with _ | a <;> cases o <;> simp [Opcode.cls, eq_comm]

theorem sourceOf_eq_ok_iff {x : Token × Operand} {s : Source} :
    sourceOf x = .ok s ↔ x.2.source? = some s := by
  rw [sourceOf]
  cases x.2.source? <;> simp

theorem destinationOf_eq_ok_iff {x : Token × Operand} {s : Destination} :
    destinationOf x = .ok s ↔ x.2.destination? = some s := by
  rw [destinationOf]
  cases x.2.destination? <;> simp

theorem pushes_eq_ok_iff {hasMem : Bool} {slot : Option (Token × Bool)} {b : Bool} :
    pushes hasMem slot = .ok b ↔
      b = (slot.map (·.2)).getD false ∧ (b = true → hasMem = true) := by
  rcases slot with _ | ⟨tk, _ | _⟩ <;> cases hasMem <;> cases b <;> simp [pushes]

theorem checkRoom_eq_ok_iff {layout : Layout} {slot : Option (Token × Imm)} {u : Unit} :
    checkRoom layout slot = .ok u ↔
      ((slot.map (·.2)).getD .zero ≠ .zero → layout.destinationRange? ≠ none) := by
  rcases slot with _ | ⟨tk, i⟩
  · simp [checkRoom]
  · by_cases h : i ≠ .zero ∧ layout.destinationRange? = none <;> simp [checkRoom] 

/-- **A draft is completed to the operation that it describes**, and to nothing else. -/
theorem complete_eq_ok_iff {d : Draft} {cls : Class} {mnemonic : Token} {op : Operation} :
    d.complete cls mnemonic = .ok op ↔ d.Describes cls op := by
  simp only [complete, bind_eq_ok_iff, sides_eq_ok_iff, opcode_eq_ok_iff, sourceOf_eq_ok_iff,
    destinationOf_eq_ok_iff, pushes_eq_ok_iff, pure_eq_ok_iff, checkRoom_eq_ok_iff,
    checkImm_eq_ok_iff (Layout.zero_mem_sourceRange _ _ _),
    checkImm_eq_ok_iff (Layout.zero_mem_destinationRange _ _ _)]
  constructor
  · rintro ⟨⟨src, dst⟩, hoperands, opcode, ⟨rfl, halu⟩, source, hsource, destination,
      hdestination, push, ⟨rfl, hpush⟩, ⟨⟩, hroom, ⟨⟩, hsrcImm, ⟨⟩, hdstImm, rfl⟩
    exact ⟨⟨src, dst, hoperands, hsource, hdestination⟩, rfl, halu, rfl, rfl, rfl, rfl, hpush,
      hroom, hsrcImm, hdstImm⟩
  · rintro ⟨⟨src, dst, hoperands, hsource, hdestination⟩, rfl, halu, hsrc, hdst, heffect, hpush,
      hmem, hroom, hsrcImm, hdstImm⟩
    refine ⟨⟨src, dst⟩, hoperands, op.opcode, ⟨rfl, halu⟩, op.src, hsource, op.dst, hdestination,
      op.push, ⟨hpush, hmem⟩, (), hdst ▸ hroom, (), hsrc ▸ hsrcImm, (), hdst ▸ hdstImm, ?_⟩
    rw [← hsrc, ← hdst, ← heffect]

/-! ### Drafting in the usual order -/

variable {cls : Class} {scopes : Scopes}

theorem read_cons {d e : Draft} {tk : Token} {part : Part} (rest : List Token)
    (hpart : Part.read? cls scopes tk.val = .ok part) (hadd : d.add tk part = .ok e) :
    d.read cls scopes (tk :: rest) = e.read cls scopes rest := by
  rw [read, hpart, at?_ok, ok_bind, hadd, at?_ok, ok_bind]

/-- The tokens of a piece that may be left out. -/
def tokens {α : Type} (piece : Option (Token × α)) : List Token := (piece.map (·.1)).toList

/-- A piece fills its place in the draft, or leaves it empty. -/
theorem read_piece {α : Type} {d : Draft} (fill : Option (Token × α) → Draft) (part : α → Part)
    (hnone : fill none = d) (hsome : ∀ x, d.add x.1 (part x.2) = .ok (fill (some x)))
    {piece : Option (Token × α)}
    (hpart : ∀ x ∈ piece, Part.read? cls scopes x.1.val = .ok (part x.2)) (rest : List Token) :
    d.read cls scopes (tokens piece ++ rest) = (fill piece).read cls scopes rest := by
  rcases piece with _ | x
  · rw [hnone]
    rfl
  · exact read_cons rest (hpart x rfl) (hsome x)

/-- **The tokens of an operation in their usual order are drafted as what they say.** -/
theorem read_written (alu : Option (Token × AluOp)) (src : Token × Operand)
    (srcImm : Option (Token × Imm)) (dst : Token × Operand) (dstImm : Option (Token × Imm))
    (effect : Option (Token × Effect)) (push : Option (Token × Bool))
    (halu : ∀ x ∈ alu, Part.read? cls scopes x.1.val = .ok (.alu x.2))
    (hsrc : Part.read? cls scopes src.1.val = .ok (.operand src.2))
    (hsrcImm : ∀ x ∈ srcImm, Part.read? cls scopes x.1.val = .ok (.imm x.2))
    (hdst : Part.read? cls scopes dst.1.val = .ok (.operand dst.2))
    (hdstImm : ∀ x ∈ dstImm, Part.read? cls scopes x.1.val = .ok (.imm x.2))
    (heffect : ∀ x ∈ effect, Part.read? cls scopes x.1.val = .ok (.effect x.2))
    (hpush : ∀ x ∈ push, Part.read? cls scopes x.1.val = .ok (.push x.2)) :
    read cls scopes {} (tokens alu ++ src.1 :: (tokens srcImm ++ dst.1 :: (tokens dstImm
        ++ (tokens effect ++ tokens push)))) =
      .ok { operands := [src, dst], srcImm := srcImm, dstImm := dstImm,
            effect := effect.map (·.2), push := push, alu := alu.map (·.2) } := by
  refine (read_piece (fun x => { alu := x.map (·.2) }) .alu rfl (fun _ => rfl) halu _).trans ?_
  refine (read_cons _ hsrc rfl).trans ?_
  refine (read_piece (fun x => { operands := [src], srcImm := x, alu := alu.map (·.2) }) .imm
    rfl (fun _ => rfl) hsrcImm _).trans ?_
  refine (read_cons _ hdst rfl).trans ?_
  refine (read_piece (fun x => { operands := [src, dst], srcImm := srcImm, dstImm := x,
                                 alu := alu.map (·.2) }) .imm
    rfl (fun _ => rfl) hdstImm _).trans ?_
  refine (read_piece (fun x => { operands := [src, dst], srcImm := srcImm, dstImm := dstImm,
                                 effect := x.map (·.2), alu := alu.map (·.2) }) .effect
    rfl (fun _ => rfl) heffect _).trans ?_
  rw [← List.append_nil (tokens push)]
  exact read_piece (fun x => { operands := [src, dst], srcImm := srcImm, dstImm := dstImm,
                               effect := effect.map (·.2), push := x, alu := alu.map (·.2) })
    .push rfl (fun _ => rfl) hpush _

/-! ### Immediates in a draft -/

/-- The immediates of a draft, each with its token. -/
def imms (d : Draft) : List (Token × Imm) := d.srcImm.toList ++ d.dstImm.toList

theorem once_eq_ok_iff {α : Type} {slot filled : Option α} {a : α} {t : List Char} :
    once slot a t = .ok filled ↔ slot = none ∧ filled = some a := by
  cases slot <;> simp [once, eq_comm]

/-- No part pushes an immediate out of its place. -/
theorem imms_subset_of_add {d e : Draft} {tk : Token} {part : Part} (h : d.add tk part = .ok e) :
    d.imms ⊆ e.imms := by
  cases part with
  | operand o =>
    rw [add] at h
    split at h
    · cases h
    · cases h
      exact List.Subset.refl _
  | imm i =>
    rw [add] at h
    split at h
    · obtain ⟨slot, hslot, rfl⟩ := map_eq_ok_iff.mp h
      obtain ⟨hnone, rfl⟩ := once_eq_ok_iff.mp hslot
      simp [imms, hnone]
    · obtain ⟨slot, hslot, rfl⟩ := map_eq_ok_iff.mp h
      obtain ⟨hnone, rfl⟩ := once_eq_ok_iff.mp hslot
      simp [imms, hnone]
    · cases h
  | _ =>
    obtain ⟨slot, -, rfl⟩ := map_eq_ok_iff.mp h
    exact List.Subset.refl _

theorem mem_imms_of_add {d e : Draft} {tk : Token} {i : Imm} (h : d.add tk (.imm i) = .ok e) :
    (tk, i) ∈ e.imms := by
  rw [add] at h
  split at h
  · obtain ⟨slot, hslot, rfl⟩ := map_eq_ok_iff.mp h
    obtain ⟨-, rfl⟩ := once_eq_ok_iff.mp hslot
    simp [imms]
  · obtain ⟨slot, hslot, rfl⟩ := map_eq_ok_iff.mp h
    obtain ⟨-, rfl⟩ := once_eq_ok_iff.mp hslot
    simp [imms]
  · cases h

variable {d e : Draft} {tk : Token} {tokens front back : List Token}

theorem read_cons_eq_ok_iff :
    d.read cls scopes (tk :: tokens) = .ok e ↔
      ∃ part mid, Part.read? cls scopes tk.val = .ok part ∧ d.add tk part = .ok mid ∧
        mid.read cls scopes tokens = .ok e := by
  simp only [read, bind_eq_ok_iff, at?_eq_ok_iff]
  constructor
  · rintro ⟨part, hpart, mid, hmid, hrest⟩
    exact ⟨part, mid, hpart, hmid, hrest⟩
  · rintro ⟨part, mid, hpart, hmid, hrest⟩
    exact ⟨part, hpart, mid, hmid, hrest⟩

/-- The tokens of a draft are all parts. -/
theorem exists_part_of_read (h : d.read cls scopes tokens = .ok e) (htk : tk ∈ tokens) :
    ∃ part, Part.read? cls scopes tk.val = .ok part := by
  induction tokens generalizing d with
  | nil => cases htk
  | cons first rest ih =>
    obtain ⟨part, mid, hpart, -, hrest⟩ := read_cons_eq_ok_iff.mp h
    rcases List.mem_cons.mp htk with rfl | htk
    · exact ⟨part, hpart⟩
    · exact ih hrest htk

theorem imms_subset_of_read (h : d.read cls scopes tokens = .ok e) : d.imms ⊆ e.imms := by
  induction tokens generalizing d with
  | nil =>
    cases h
    exact List.Subset.refl _
  | cons tk rest ih =>
    obtain ⟨part, mid, -, hmid, hrest⟩ := read_cons_eq_ok_iff.mp h
    exact List.Subset.trans (imms_subset_of_add hmid) (ih hrest)

/-- Every token that is an immediate has its place in the draft. -/
theorem mem_imms_of_read (h : d.read cls scopes tokens = .ok e) (htk : tk ∈ tokens) {i : Imm}
    (hpart : Part.read? cls scopes tk.val = .ok (.imm i)) : (tk, i) ∈ e.imms := by
  induction tokens generalizing d with
  | nil => cases htk
  | cons first rest ih =>
    obtain ⟨part, mid, hfirst, hmid, hrest⟩ := read_cons_eq_ok_iff.mp h
    rcases List.mem_cons.mp htk with rfl | htk
    · obtain rfl := Except.ok.inj (hpart.symm.trans hfirst)
      exact imms_subset_of_read hrest (mem_imms_of_add hmid)
    · exact ih hrest htk

/-- Tokens are drafted one part of them behind the other. -/
theorem read_append : d.read cls scopes (front ++ back) =
    (d.read cls scopes front).bind fun mid => mid.read cls scopes back := by
  induction front generalizing d with
  | nil => rfl
  | cons tk rest ih =>
    rw [List.cons_append, read, read]
    rcases at? tk (Part.read? cls scopes tk.val) with err | part
    · rfl
    · rw [ok_bind, ok_bind]
      rcases at? tk (d.add tk part) with err | mid
      · rfl
      · exact ih

end Draft

variable {cls : Class} {scopes : Scopes}

theorem readOperation_eq_ok_iff {mnemonic : Token} {rest : List Token} {op : Operation} :
    readOperation cls scopes mnemonic rest = .ok op ↔
      ∃ d, Draft.read cls scopes {} rest = .ok d ∧ d.Describes cls op := by
  simp only [readOperation, bind_eq_ok_iff, Draft.complete_eq_ok_iff]

/-- An immediate stands beside one of the operands. -/
def Operation.HasImm (op : Operation) (i : Imm) : Prop := op.srcImm = i ∨ op.dstImm = i

/-- **Every token that is an immediate is one of the operation.** -/
theorem hasImm_of_readOperation {mnemonic tk : Token} {rest : List Token} {op : Operation}
    (h : readOperation cls scopes mnemonic rest = .ok op) (htk : tk ∈ rest) {i : Imm}
    (hpart : Part.read? cls scopes tk.val = .ok (.imm i)) : op.HasImm i := by
  obtain ⟨d, hd, hdescribes⟩ := readOperation_eq_ok_iff.mp h
  rcases List.mem_append.mp (Draft.mem_imms_of_read hd htk hpart) with hmem | hmem
  · left
    rw [hdescribes.srcImm, Option.mem_toList.mp hmem]
    rfl
  · right
    rw [hdescribes.dstImm, Option.mem_toList.mp hmem]
    rfl

/-- A token that says nothing is to blame, unless one before it is. -/
theorem readOperation_of_refused {mnemonic tk : Token} {before after : List Token} {e : LineError}
    (hpart : Part.read? cls scopes tk.val = .error e) :
    readOperation cls scopes mnemonic (before ++ tk :: after) =
      (Draft.read cls scopes {} before).bind fun _ => .error (tk.withVal e) := by
  rw [readOperation, Draft.read_append]
  rcases Draft.read cls scopes {} before with err | d
  · rfl
  · change (d.read cls scopes (tk :: after)).bind _ = _
    rw [Draft.read, hpart]
    rfl

end Assembly

end WordMachine
