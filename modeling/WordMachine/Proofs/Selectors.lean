import WordMachine.Proofs.Numerals

/-!
# Numbers that select something

Registers, memory operands, the immediate operand and effects are told by numbers, and there are
only a few numbers of each kind. A number is looked up after it was made a word, so it is its low
sixteen bits that select. A number that is too large for a word may therefore select something as
well, and then it selects what a small one does; it is not refused for being large.

`SelectorKind` has the four kinds with the numbers that go with each, so what can be said of all
kinds of token is said once. The stack of a call is a memory operand that is read on its own, and
what holds of memory operands holds of it.

## Main results

* `SelectorKind.read?_numeral`: what a token of one of the kinds says
* `SelectorKind.takes_iff`: which tokens are accepted in a line of code and as a stack, and what
  becomes of the others
* `SelectorKind.exists_taken_beyond`: a register that has a number of its own and another one
-/

namespace WordMachine

/-- As a word, a number without a sign is its low sixteen bits. -/
theorem Numeral.Form.toNat_ofInt {f : Numeral.Form} (h : 0 ≤ f.int) :
    (Word.ofInt f.int).toNat = f.magnitude % 65536 := by
  have hint := f.int_eq_or
  rw [Word.toNat_ofInt]
  omega

namespace Assembly

open Numeral (limit)

/-- The kinds of token in which a number selects something. -/
inductive SelectorKind where
  | reg
  | mem
  | val
  | eff
  deriving DecidableEq, Repr

/-- What operand a numeral selects. -/
theorem Operand.read?_numeral (f : Numeral.Form) (kind : List Char) :
    Operand.read? f.text kind =
      if 0 ≤ f.int ∧ f.magnitude ≤ limit then ofNumber? (f.magnitude % 65536) kind else none := by
  rw [Operand.read?, Numeral.read?_text]
  by_cases hle : f.magnitude ≤ limit
  · simp only [if_pos hle, and_iff_left hle]
    split
    · next hnonneg => rw [Numeral.Form.toNat_ofInt hnonneg]
    · rfl
  · rw [if_neg hle, if_neg fun hand => hle hand.2]

namespace SelectorKind

/-- The written form of a kind. -/
def text : SelectorKind → List Char
  | reg => "reg".toList
  | mem => "mem".toList
  | val => "val".toList
  | eff => "eff".toList

/-- The numbers that go with a kind. -/
def numbers : SelectorKind → List Nat
  | reg => [0, 1, 2, 3, 4]
  | mem => [1, 2, 3]
  | val => [4]
  | eff => [0, 1, 2, 3]

/-- What a number of a kind selects. -/
def part? : SelectorKind → Nat → Option Part
  | eff, n => (Effect.ofCode? n).map .effect
  | k, n => (Operand.ofNumber? n k.text).map .operand

/-- What is wrong with a token that selects nothing. -/
def refusal : SelectorKind → List Char → LineError
  | eff => .invalidOperand
  | _ => .invalidRegister

/-- Whether a numeral selects something: it stands for a number that can be read and has no sign,
and the low sixteen bits of this number go with the kind. -/
def Takes (k : SelectorKind) (f : Numeral.Form) : Prop :=
  0 ≤ f.int ∧ f.magnitude ≤ limit ∧ f.magnitude % 65536 ∈ k.numbers

instance (k : SelectorKind) (f : Numeral.Form) : Decidable (k.Takes f) :=
  inferInstanceAs (Decidable (_ ∧ _ ∧ _))

theorem isSome_part?_iff {k : SelectorKind} {n : Nat} : (k.part? n).isSome ↔ n ∈ k.numbers := by
  rcases n with _ | _ | _ | _ | _ | n
  case succ.succ.succ.succ.succ =>
    have hreg : Reg.ofNumber? (n + 5) = none := rfl
    have heff : Effect.ofCode? (n + 5) = none := rfl
    cases k <;> simp [part?, numbers, text, Operand.ofNumber?, hreg, heff]
  all_goals cases k <;> decide

theorem takes_iff_exists {k : SelectorKind} {f : Numeral.Form} :
    k.Takes f ↔
      0 ≤ f.int ∧ f.magnitude ≤ limit ∧ ∃ part, k.part? (f.magnitude % 65536) = some part := by
  rw [Takes, ← isSome_part?_iff, Option.isSome_iff_exists]

variable {f : Numeral.Form} {k : SelectorKind} {kind : List Char} {tk : Token} {cls : Class}
  {scopes : Scopes}

theorem not_mem_kind (hkind : kind.map Char.toLower = k.text) : '.' ∉ kind := by
  intro hmem
  have hlower : '.' ∈ kind.map Char.toLower := List.mem_map.mpr ⟨'.', hmem, by decide⟩
  rw [hkind] at hlower
  cases k <;> exact absurd hlower (by decide)

/-- **What a token of one of the kinds says.** -/
theorem read?_numeral (hkind : kind.map Char.toLower = k.text)
    (htk : tk.val = f.text ++ '.' :: kind) :
    Part.read? cls scopes tk.val =
      (if 0 ≤ f.int ∧ f.magnitude ≤ limit then k.part? (f.magnitude % 65536) else none).elim
        (.error (k.refusal tk.val)) .ok := by
  have hsplit : splitKind? tk.val = some (f.text, k.text) := by
    rw [htk, splitKind?_append (not_mem_kind hkind), hkind]
  have hpush : ¬ (tk.val = "push".toList ∨ tk.val = "pop".toList) := by
    rintro (h | h) <;> rw [h] at hsplit <;> cases hsplit
  rw [Part.read?, if_neg hpush, hsplit]
  dsimp only
  by_cases heff : k = eff
  · subst heff
    rw [if_neg (by decide), if_pos (show eff.text = "eff".toList from rfl), Numeral.read?_text]
    by_cases hle : f.magnitude ≤ limit
    · simp only [if_pos hle, and_iff_left hle]
      by_cases hnonneg : 0 ≤ f.int
      · rw [if_pos hnonneg, if_pos hnonneg, Numeral.Form.toNat_ofInt hnonneg, part?]
        cases Effect.ofCode? (f.magnitude % 65536) <;> rfl
      · rw [if_neg hnonneg, if_neg hnonneg]
        rfl
    · rw [if_neg hle, if_neg fun hand => hle hand.2]
      rfl
  · have hoperand : k.text = "reg".toList ∨ k.text = "mem".toList ∨ k.text = "val".toList := by
      revert heff
      cases k <;> decide
    have hrefusal : k.refusal tk.val = .invalidRegister tk.val := by
      cases k with
      | eff => exact absurd rfl heff
      | _ => rfl
    rw [if_pos hoperand, Operand.read?_numeral, hrefusal]
    by_cases hread : 0 ≤ f.int ∧ f.magnitude ≤ limit
    · rw [if_pos hread, if_pos hread, part?.eq_2 _ _ heff]
      cases Operand.ofNumber? (f.magnitude % 65536) k.text <;> rfl
    · rw [if_neg hread, if_neg hread]
      rfl

theorem read?_of_takes (hkind : kind.map Char.toLower = k.text)
    (htk : tk.val = f.text ++ '.' :: kind) (h : k.Takes f) :
    ∃ part, k.part? (f.magnitude % 65536) = some part ∧
      Part.read? cls scopes tk.val = .ok part := by
  obtain ⟨hnonneg, hle, part, hpart⟩ := takes_iff_exists.mp h
  refine ⟨part, hpart, ?_⟩
  rw [read?_numeral hkind htk, if_pos ⟨hnonneg, hle⟩, hpart]
  rfl

theorem selected_eq_none (h : ¬ k.Takes f) :
    (if 0 ≤ f.int ∧ f.magnitude ≤ limit then k.part? (f.magnitude % 65536) else none) = none := by
  refine Option.eq_none_iff_forall_ne_some.mpr fun part hpart => h ?_
  obtain ⟨hread, hpart⟩ := Option.ite_none_right_eq_some.mp hpart
  exact takes_iff_exists.mpr ⟨hread.1, hread.2, part, hpart⟩

theorem read?_of_not_takes (hkind : kind.map Char.toLower = k.text)
    (htk : tk.val = f.text ++ '.' :: kind) (h : ¬ k.Takes f) :
    Part.read? cls scopes tk.val = .error (k.refusal tk.val) := by
  rw [read?_numeral hkind htk, selected_eq_none h]
  rfl

theorem part?_mem (n : Nat) : mem.part? n = (Reg.ofNumber? n).map fun r => .operand (.mem r) :=
  Option.map_map ..

end SelectorKind

/-! ### Lines with a token in them -/

/-- An opcode of a class. -/
def someOpcode : Class → Opcode
  | .copy => .copy
  | .compute => .compute .and

/-- The token for it, where a line has to have one. -/
def someAlu : Class → Option (Token × AluOp)
  | .copy => none
  | .compute => some (⟨⟨1, 1⟩, AluOp.and.name ++ ".op".toList⟩, .and)

variable {cls : Class} {scopes : Scopes} {first : Token}

/-- **Any source and any destination make a line**, with an effect or without one. -/
theorem exists_readLine (hfirst : first.val = mnemonic cls) {src dst : Token × Operand}
    {source : Source} {destination : Destination} (effect : Option (Token × Effect))
    (hsrc : Part.read? cls scopes src.1.val = .ok (.operand src.2))
    (hsource : src.2.source? = some source)
    (hdst : Part.read? cls scopes dst.1.val = .ok (.operand dst.2))
    (hdestination : dst.2.destination? = some destination)
    (heffect : ∀ x ∈ effect, Part.read? cls scopes x.1.val = .ok (.effect x.2)) :
    ∃ op, readLine scopes (first :: (Draft.tokens (someAlu cls) ++ src.1 :: dst.1 ::
      Draft.tokens effect)) = .ok (some (.op op), scopes) := by
  have halu : ∀ x ∈ someAlu cls, Part.read? cls scopes x.1.val = .ok (.alu x.2) := by
    intro x hx
    cases cls with
    | copy => cases hx
    | compute =>
      obtain rfl := Option.some.inj hx
      exact Part.read?_alu .and
  have hdraft := Draft.read_written (someAlu cls) src none dst none effect none halu hsrc nofun hdst
    nofun heffect nofun
  have himm : Draft.tokens (none : Option (Token × Imm)) = [] := rfl
  have hpush : Draft.tokens (none : Option (Token × Bool)) = [] := rfl
  rw [himm, hpush, List.nil_append, List.nil_append, List.append_nil] at hdraft
  let op : Operation := ⟨someOpcode cls, source, destination, .zero, .zero,
    (effect.map (·.2)).getD .always, false⟩
  have hzero {v : Int} (h : op.srcImm = .num v) : v = 0 := (Imm.num.inj h).symm
  refine ⟨op, ?_⟩
  rw [readLine_mnemonic hfirst, map_eq_ok_iff]
  refine ⟨op, readOperation_eq_ok_iff.mpr ⟨_, hdraft, ?_⟩, rfl⟩
  refine ⟨⟨src, dst, rfl, hsource, hdestination⟩, ?_, ?_, rfl, rfl, rfl, rfl, nofun,
    fun h => absurd rfl h, fun v hv => ?_, fun v hv => ?_⟩
  · cases cls <;> rfl
  · intro a ha
    cases cls with
    | copy => cases ha
    | compute =>
      cases ha
      rfl
  · rw [hzero hv]
    exact Layout.zero_mem_sourceRange ..
  · rw [hzero hv]
    exact Layout.zero_mem_destinationRange ..

/-- Every operand is a source or a destination. -/
theorem Operand.exists_side (o : Operand) :
    (∃ source, o.source? = some source) ∨ ∃ destination, o.destination? = some destination := by
  cases o with
  | val => exact .inl ⟨_, rfl⟩
  | _ => exact .inr ⟨_, rfl⟩

/-- The stack of a call is told as memory operands are. -/
theorem AliasTable.stackReg?_numeral {t : AliasTable} {f : Numeral.Form}
    {raw text kind : List Char} (hkind : kind.map Char.toLower = SelectorKind.mem.text)
    (htext : text = f.text ++ '.' :: kind)
    (hraw : t.get? raw = some (.direct text) ∨ t.get? raw = none ∧ raw = text) :
    t.stackReg? raw =
      (if 0 ≤ f.int ∧ f.magnitude ≤ limit then Reg.ofNumber? (f.magnitude % 65536) else none).elim
        (.error (.invalidStackOperand text)) .ok := by
  have hstack {r : Option Reg} (h : Operand.ofToken? text = r.map .mem) :
      t.stackReg? raw = r.elim (.error (.invalidStackOperand text)) .ok := by
    rw [stackReg?]
    rcases hraw with hraw | ⟨hraw, rfl⟩ <;> rw [hraw, Except.bind, h] <;> cases r <;> rfl
  refine hstack ?_
  rw [Operand.ofToken?, htext, splitKind?_append (SelectorKind.not_mem_kind hkind), hkind]
  refine (Operand.read?_numeral f _).trans ?_
  split <;> rfl

namespace SelectorKind

variable {f : Numeral.Form} {k : SelectorKind} {kind : List Char} {tk : Token}

section Stack

variable {t : AliasTable} {raw text : List Char}

theorem stackReg?_of_takes (hkind : kind.map Char.toLower = mem.text)
    (htext : text = f.text ++ '.' :: kind)
    (hraw : t.get? raw = some (.direct text) ∨ t.get? raw = none ∧ raw = text) (h : mem.Takes f) :
    ∃ r, Reg.ofNumber? (f.magnitude % 65536) = some r ∧ t.stackReg? raw = .ok r := by
  obtain ⟨hnonneg, hle, part, hpart⟩ := takes_iff_exists.mp h
  rw [part?_mem] at hpart
  obtain ⟨r, hr, -⟩ := Option.map_eq_some_iff.mp hpart
  refine ⟨r, hr, ?_⟩
  rw [AliasTable.stackReg?_numeral hkind htext hraw, if_pos ⟨hnonneg, hle⟩, hr]
  rfl

theorem stackReg?_of_not_takes (hkind : kind.map Char.toLower = mem.text)
    (htext : text = f.text ++ '.' :: kind)
    (hraw : t.get? raw = some (.direct text) ∨ t.get? raw = none ∧ raw = text)
    (h : ¬ mem.Takes f) : t.stackReg? raw = .error (.invalidStackOperand text) := by
  have hnone := selected_eq_none h
  rw [AliasTable.stackReg?_numeral hkind htext hraw]
  split
  · next hread =>
    rw [if_pos hread, part?_mem, Option.map_eq_none_iff] at hnone
    rw [hnone]
    rfl
  · rfl

end Stack

/-- A token that selects something stands on some line that is accepted. -/
theorem exists_line (hkind : kind.map Char.toLower = k.text) (htk : tk.val = f.text ++ '.' :: kind)
    (hfirst : first.val = mnemonic cls) (h : k.Takes f) :
    ∃ before after op,
      readLine scopes (first :: (before ++ tk :: after)) = .ok (some (.op op), scopes) := by
  have htaken : ∃ part, k.part? (f.magnitude % 65536) = some part ∧
      Part.read? cls scopes tk.val = .ok part := read?_of_takes hkind htk h
  obtain ⟨part, hpart, hread⟩ := htaken
  let src : Token × Operand := (⟨⟨1, 1⟩, (Source.reg .r1).text⟩, .ofSource (.reg .r1))
  let dst : Token × Operand := (⟨⟨1, 1⟩, (Destination.reg .r1).text⟩, .ofDestination (.reg .r1))
  have hsrc : Part.read? cls scopes src.1.val = .ok (.operand src.2) :=
    Part.read?_source (.reg .r1)
  have hdst : Part.read? cls scopes dst.1.val = .ok (.operand dst.2) :=
    Part.read?_destination (.reg .r1)
  have hsource : src.2.source? = some (.reg .r1) := rfl
  have hdestination : dst.2.destination? = some (.reg .r1) := rfl
  have hkinds : (∃ o, part = .operand o) ∨ ∃ e, part = .effect e := by
    cases k with
    | eff =>
      obtain ⟨e, -, rfl⟩ := Option.map_eq_some_iff.mp hpart
      exact .inr ⟨e, rfl⟩
    | _ =>
      obtain ⟨o, -, rfl⟩ := Option.map_eq_some_iff.mp hpart
      exact .inl ⟨o, rfl⟩
  rcases hkinds with ⟨o, rfl⟩ | ⟨e, rfl⟩
  · let taken : Token × Operand := (tk, o)
    have hoperand : Part.read? cls scopes taken.1.val = .ok (.operand taken.2) := hread
    rcases o.exists_side with ⟨source, hfront⟩ | ⟨destination, hback⟩
    · obtain ⟨op, hop⟩ := exists_readLine hfirst none hoperand hfront hdst hdestination nofun
      exact ⟨Draft.tokens (someAlu cls), [dst.1], op, hop⟩
    · obtain ⟨op, hop⟩ := exists_readLine hfirst none hsrc hsource hoperand hback nofun
      refine ⟨Draft.tokens (someAlu cls) ++ [src.1], [], op, ?_⟩
      rwa [List.append_assoc]
  · have heffect : ∀ x ∈ some (tk, e), Part.read? cls scopes x.1.val = .ok (.effect x.2) := by
      intro x hx
      obtain rfl := Option.some.inj hx
      exact hread
    obtain ⟨op, hop⟩ := exists_readLine hfirst _ hsrc hsource hdst hdestination heffect
    refine ⟨Draft.tokens (someAlu cls) ++ [src.1, dst.1], [], op, ?_⟩
    rwa [List.append_assoc]

/-- A line with a token that selects nothing is refused, for this token or for one before it. -/
theorem readLine_of_not_takes (hkind : kind.map Char.toLower = k.text)
    (htk : tk.val = f.text ++ '.' :: kind) (hfirst : first.val = mnemonic cls) (h : ¬ k.Takes f)
    (before after : List Token) :
    readLine scopes (first :: (before ++ tk :: after)) =
      (Draft.read cls scopes {} before).bind fun _ => .error (tk.withVal (k.refusal tk.val)) := by
  rw [readLine_mnemonic hfirst, readOperation_of_refused (read?_of_not_takes hkind htk h)]
  cases Draft.read cls scopes {} before <;> rfl

theorem lt_of_mem_numbers {n : Nat} (h : n ∈ k.numbers) : n < 65536 := by
  have hall : ∀ n ∈ k.numbers, n < 65536 := by cases k <;> decide
  exact hall n h

/-- A numeral selects something if its number does, or one that is a multiple of `2 ^ 16` beyond. -/
theorem takes_iff_or :
    k.Takes f ↔ (∃ n ∈ k.numbers, f.int = n) ∨
      (65536 ≤ f.int ∧ f.int ≤ limit ∧ f.magnitude % 65536 ∈ k.numbers) := by
  have hint := f.int_eq_or
  have hlimit : 65536 < limit := by decide
  constructor
  · rintro ⟨hnonneg, hle, hmem⟩
    by_cases hlt : f.magnitude < 65536
    · rw [Nat.mod_eq_of_lt hlt] at hmem
      exact .inl ⟨_, hmem, by omega⟩
    · exact .inr ⟨by omega, by omega, hmem⟩
  · rintro (⟨n, hn, heq⟩ | ⟨hbeyond, hle, hmem⟩)
    · have hlt := lt_of_mem_numbers hn
      have hmagnitude : f.magnitude = n := by omega
      exact ⟨by omega, by omega, by rwa [hmagnitude, Nat.mod_eq_of_lt hlt]⟩
    · exact ⟨by omega, by omega, hmem⟩

/-- **Which numerals select something.** A numeral in a token of one of the kinds, whatever the case
of the kind, selects what the low sixteen bits of its number do, if the number can be read and is
not negative: this is so if the number itself goes with the kind, and if it is a multiple of `2 ^
16` beyond one that does. There is then a line of code, of either class, that has this token and is
accepted, and the token says there what is selected. If nothing is selected, every line of code with
this token is refused, on account of the token if not of one before it. The stack of a call, which
may be given through an alias, is told in the same way by a numeral for memory. -/
theorem takes_iff (hkind : kind.map Char.toLower = k.text) (htk : tk.val = f.text ++ '.' :: kind)
    (hfirst : first.val = mnemonic cls) :
    (k.Takes f ↔ (∃ n ∈ k.numbers, f.int = n) ∨
      (65536 ≤ f.int ∧ f.int ≤ limit ∧ f.magnitude % 65536 ∈ k.numbers)) ∧
    (k.Takes f ↔ ∃ before after s, readLine scopes (first :: (before ++ tk :: after)) = .ok s) ∧
    (k.Takes f → ∃ part, k.part? (f.magnitude % 65536) = some part ∧
      Part.read? cls scopes tk.val = .ok part) ∧
    (¬ k.Takes f → ∀ before after, readLine scopes (first :: (before ++ tk :: after)) =
      (Draft.read cls scopes {} before).bind fun _ => .error (tk.withVal (k.refusal tk.val))) ∧
    (k = .mem → ∀ (t : AliasTable) (raw : List Char),
      (t.get? raw = some (.direct tk.val) ∨ t.get? raw = none ∧ raw = tk.val) →
      (k.Takes f → ∃ r, Reg.ofNumber? (f.magnitude % 65536) = some r ∧
        t.stackReg? raw = .ok r) ∧
      (¬ k.Takes f → t.stackReg? raw = .error (.invalidStackOperand tk.val))) := by
  refine ⟨takes_iff_or, ⟨fun h => ?_, ?_⟩, read?_of_takes hkind htk,
    readLine_of_not_takes hkind htk hfirst, ?_⟩
  · have hline : ∃ before after op, readLine scopes (first :: (before ++ tk :: after))
        = .ok (some (.op op), scopes) := exists_line hkind htk hfirst h
    obtain ⟨before, after, op, hop⟩ := hline
    exact ⟨before, after, _, hop⟩
  · rintro ⟨before, after, s, hs⟩
    refine Decidable.byContradiction fun h => ?_
    rw [readLine_of_not_takes hkind htk hfirst h] at hs
    obtain ⟨_, -, hs⟩ := bind_eq_ok_iff.mp hs
    cases hs
  · rintro rfl t raw hraw
    exact ⟨stackReg?_of_takes hkind htk hraw, stackReg?_of_not_takes hkind htk hraw⟩

/-- The numeral of a row of digits. -/
def ofDigits (digits : List Char) (hne : digits ≠ [])
    (hdigits : digits.all Numeral.isDigit = true) : Numeral.Form :=
  ⟨false, false, digits, hne, hdigits⟩

/-- There is a third pointer, and no eighth register. -/
theorem takes_iff_three :
    (∃ before after s, readLine ({} : Scopes) (⟨⟨1, 1⟩, "copy".toList⟩ :: (before ++
      ⟨⟨1, 6⟩, "3.MEM".toList⟩ :: after)) = .ok s) ∧
    AliasTable.stackReg? {} "3.MEM".toList = .ok .r3 ∧
    readLine ({} : Scopes) [⟨⟨1, 1⟩, "copy".toList⟩, ⟨⟨1, 6⟩, "8.reg".toList⟩] =
      .error ⟨⟨1, 6⟩, .invalidRegister "8.reg".toList⟩ := by
  let three := ofDigits "3".toList (by decide) (by decide)
  let eight := ofDigits "8".toList (by decide) (by decide)
  let pointer : Token := ⟨⟨1, 6⟩, "3.MEM".toList⟩
  let register : Token := ⟨⟨1, 6⟩, "8.reg".toList⟩
  have hmem : "MEM".toList.map Char.toLower = mem.text := rfl
  have hreg : "reg".toList.map Char.toLower = reg.text := rfl
  have hpointer : pointer.val = three.text ++ '.' :: "MEM".toList := rfl
  have hregister : register.val = eight.text ++ '.' :: "reg".toList := rfl
  have hcopy : (⟨⟨1, 1⟩, "copy".toList⟩ : Token).val = mnemonic .copy := rfl
  obtain ⟨-, hline, -, -, hstack⟩ := takes_iff hmem hpointer hcopy
  obtain ⟨-, -, -, hrefused, -⟩ := takes_iff hreg hregister hcopy
  obtain ⟨r, hr, hthree⟩ := (hstack rfl {} _ (.inr ⟨rfl, rfl⟩)).1 (by decide)
  obtain rfl := Option.some.inj hr
  exact ⟨hline.mp (by decide), hthree, hrefused (by decide) [] []⟩

/-- A copy of the first register to the second, if the last result was zero. -/
def copyFirst : Operation := ⟨.copy, .reg .r1, .reg .r2, .zero, .zero, .ifZero, false⟩

/-- **A register with two numbers.** The second one is no number of a register, and the line with it
is accepted all the same, and so are a stack and an effect. -/
theorem exists_taken_beyond :
    (0x10001 ∉ reg.numbers ∧ 0x10001 ∉ mem.numbers ∧ 0x10000 ∉ eff.numbers) ∧
    (Numeral.read? "10001".toList = some 0x10001 ∧ Numeral.read? "10000".toList = some 0x10000) ∧
    readLine ({} : Scopes) (lineOf ["copy", "10001.reg", "2.reg", "10000.eff"])
      = .ok (some (.op copyFirst), {}) ∧
    AliasTable.stackReg? {} "10001.mem".toList = .ok .r1 := by
  refine ⟨by decide, by decide, by rfl, by rfl⟩

end SelectorKind

end Assembly

end WordMachine
