import WordMachine.Proofs.Rows

/-!
# Numerals and names

A numeral is a sign or none, a prefix or none, and as many digits as one likes (`Numeral.Form`). In
the place of an immediate there may stand a numeral or a name, and many names consist of digits. So
it has to be said which of the two a text is, and the reader says it in one place: a text is a
number if it can be read as one. But the largest number that can be read is `Numeral.limit`, and
what is written for a larger one is not a number that is too large. It is not a number at all, and
so it is a name, since there is nothing in a numeral that may not stand in a name.

Operations and lines of data read their immediates separately, and they agree in this. What they do
with a number that is not too large to be read differs: beside an operand it has to be in the range
of the layout, and among data it has to fit into a word.

## Main results

* `Numeral.read?_eq_some_iff`: which texts are read as numbers, and as which
* `Numeral.read?_text`: a numeral is read as its number if that is within the limit
* `readsAs_of_readLine`: what a numeral in the place of an immediate comes to
* `exists_name_of_digits`: a row of digits that refers to a label
-/

namespace WordMachine

namespace Numeral

/-- The form of a numeral. -/
structure Form where
  minus : Bool
  isPrefixed : Bool
  digits : List Char
  digits_ne_nil : digits ≠ []
  isDigit_digits : digits.all isDigit = true

namespace Form

/-- What stands before the digits. -/
def front (f : Form) : List Char :=
  (if f.minus then ['-'] else []) ++ if f.isPrefixed then ['0', 'x'] else []

/-- The text of a numeral. -/
def text (f : Form) : List Char := f.front ++ f.digits

/-- The number without its sign. -/
def magnitude (f : Form) : Nat := value f.digits

/-- The number that a numeral stands for. -/
def int (f : Form) : Int := if f.minus then -(f.magnitude : Int) else f.magnitude

theorem int_eq_or (f : Form) : f.int = f.magnitude ∨ f.int = -(f.magnitude : Int) := by
  rw [int]
  split
  · exact .inr rfl
  · exact .inl rfl

end Form

/-! ### Reading -/

theorem readDigits?_zero {t : List Char} (h : t.all isDigit = true) :
    readDigits? 0 t = if value t ≤ limit then some (value t) else none := by
  refine Option.ext fun n => ?_
  rw [readDigits?_eq_some_iff (Nat.zero_le _)]
  change _ ∧ value t = n ∧ n ≤ limit ↔ _
  simp only [h, true_and, Option.ite_none_right_eq_some, Option.some.injEq]
  constructor
  · rintro ⟨rfl, hle⟩
    exact ⟨hle, rfl⟩
  · rintro ⟨hle, rfl⟩
    exact ⟨rfl, hle⟩

theorem readMagnitude?_of_prefixed (rest : List Char) :
    readMagnitude? ('0' :: 'x' :: rest) = if rest.isEmpty then none else readDigits? 0 rest :=
  rfl

theorem readMagnitude?_of_plain {t : List Char} (h : ∀ rest, t ≠ '0' :: 'x' :: rest) :
    readMagnitude? t = if t.isEmpty then none else readDigits? 0 t := by
  unfold readMagnitude?
  split
  · next rest => exact absurd rfl (h rest)
  · rfl

theorem read?_minus (rest : List Char) :
    read? ('-' :: rest) = (readMagnitude? rest).map fun n : Nat => -(n : Int) := by
  rw [read?]
  cases readMagnitude? rest <;> rfl

/-- A row of digits is read as a magnitude, behind a prefix or without one. -/
theorem readMagnitude?_digits (isPrefixed : Bool) {digits : List Char} (hne : digits ≠ [])
    (hdigits : digits.all isDigit = true) :
    readMagnitude? ((if isPrefixed then ['0', 'x'] else []) ++ digits) =
      if value digits ≤ limit then some (value digits) else none := by
  have hempty : digits.isEmpty = false := by simpa using hne
  rw [← readDigits?_zero hdigits]
  cases isPrefixed with
  | true => exact (readMagnitude?_of_prefixed digits).trans (by rw [hempty]; rfl)
  | false =>
    -- The second character of a prefix is no digit.
    have hplain : ∀ rest, digits ≠ '0' :: 'x' :: rest := by
      rintro rest rfl
      simp [isDigit] at hdigits
    exact (readMagnitude?_of_plain hplain).trans (by rw [hempty]; rfl)

/-- Nothing else is read as a magnitude. -/
theorem exists_digits_of_readMagnitude? {t : List Char} {n : Nat} (h : readMagnitude? t = some n) :
    ∃ (isPrefixed : Bool) (digits : List Char), digits ≠ [] ∧ digits.all isDigit = true ∧
      t = (if isPrefixed then ['0', 'x'] else []) ++ digits ∧ value digits = n ∧ n ≤ limit := by
  have hread {digits : List Char}
      (h : (if digits.isEmpty then none else readDigits? 0 digits) = some n) :
      digits ≠ [] ∧ digits.all isDigit = true ∧ value digits = n ∧ n ≤ limit := by
    obtain ⟨hempty, hdigits⟩ := Option.ite_none_left_eq_some.mp h
    obtain ⟨hall, hvalue, hle⟩ := (readDigits?_eq_some_iff (Nat.zero_le _)).mp hdigits
    exact ⟨by simpa using hempty, hall, hvalue, hle⟩
  by_cases hprefix : ∃ rest, t = '0' :: 'x' :: rest
  · obtain ⟨rest, rfl⟩ := hprefix
    obtain ⟨hne, hall, hvalue, hle⟩ := hread h
    exact ⟨true, rest, hne, hall, rfl, hvalue, hle⟩
  · rw [readMagnitude?_of_plain fun rest heq => hprefix ⟨rest, heq⟩] at h
    obtain ⟨hne, hall, hvalue, hle⟩ := hread h
    exact ⟨false, t, hne, hall, rfl, hvalue, hle⟩

/-- **A numeral is read as its number if that is within the limit**, and otherwise not at all. -/
theorem read?_text (f : Form) :
    read? f.text = if f.magnitude ≤ limit then some f.int else none := by
  obtain ⟨minus, isPrefixed, digits, hne, hdigits⟩ := f
  have hmagnitude := readMagnitude?_digits isPrefixed hne hdigits
  cases minus with
  | true =>
    change read? ('-' :: ((if isPrefixed then ['0', 'x'] else []) ++ digits)) = _
    rw [read?_minus, hmagnitude]
    change _ = if value digits ≤ limit then some (-(value digits : Int)) else none
    split <;> rfl
  | false =>
    change read? ((if isPrefixed then ['0', 'x'] else []) ++ digits) = _
    have hplain : ∀ rest, (if isPrefixed then ['0', 'x'] else []) ++ digits ≠ '-' :: rest := by
      intro rest heq
      cases isPrefixed with
      | true => cases heq
      | false =>
        change digits = '-' :: rest at heq
        subst heq
        simp [isDigit] at hdigits
    rw [read?.eq_2 _ hplain, hmagnitude]
    change _ = if value digits ≤ limit then some (value digits : Int) else none
    split <;> rfl

/-- **Which texts are read as numbers, and as which.** -/
theorem read?_eq_some_iff {t : List Char} {i : Int} :
    read? t = some i ↔ ∃ f : Form, f.text = t ∧ f.magnitude ≤ limit ∧ f.int = i := by
  constructor
  · intro h
    by_cases hminus : ∃ rest, t = '-' :: rest
    · obtain ⟨rest, rfl⟩ := hminus
      rw [read?_minus] at h
      obtain ⟨n, hn, rfl⟩ := Option.map_eq_some_iff.mp h
      obtain ⟨isPrefixed, digits, hne, hdigits, rfl, rfl, hle⟩ := exists_digits_of_readMagnitude? hn
      exact ⟨⟨true, isPrefixed, digits, hne, hdigits⟩, rfl, hle, rfl⟩
    · rw [read?.eq_2 _ fun rest heq => hminus ⟨rest, heq⟩] at h
      obtain ⟨n, hn, rfl⟩ := Option.map_eq_some_iff.mp h
      obtain ⟨isPrefixed, digits, hne, hdigits, rfl, rfl, hle⟩ := exists_digits_of_readMagnitude? hn
      exact ⟨⟨false, isPrefixed, digits, hne, hdigits⟩, rfl, hle, rfl⟩
  · rintro ⟨f, rfl, hle, rfl⟩
    rw [read?_text, if_pos hle]

/-! ### Numerals as names -/

namespace Form

variable (f : Form)

theorem mem_text {c : Char} (h : c ∈ f.text) : c = '-' ∨ c = 'x' ∨ isDigit c = true := by
  rcases List.mem_append.mp h with hfront | hdigits
  · rcases List.mem_append.mp hfront with hminus | hprefix
    · split at hminus
      · exact .inl (List.mem_singleton.mp hminus)
      · cases hminus
    · split at hprefix
      · rcases List.mem_cons.mp hprefix with rfl | hx
        · exact .inr (.inr (by decide))
        · exact .inr (.inl (List.mem_singleton.mp hx))
      · cases hprefix
  · exact .inr (.inr (List.all_eq_true.mp f.isDigit_digits c hdigits))

/-- There is nothing else in a numeral than in names. -/
theorem not_mem_text {c : Char} (h : (c == '-' || c == 'x' || isDigit c) = false) : c ∉ f.text := by
  intro hmem
  simp only [Bool.or_eq_false_iff, beq_eq_false_iff_ne] at h
  rcases f.mem_text hmem with hminus | hx | hdigit
  · exact h.1.1 hminus
  · exact h.1.2 hx
  · rw [h.2] at hdigit
    cases hdigit

theorem text_ne_nil : f.text ≠ [] := fun h => f.digits_ne_nil (List.append_eq_nil_iff.mp h).2

end Form

end Numeral

namespace Assembly

open Numeral (limit)

variable {cls : Class} {scopes next : Scopes} {f : Numeral.Form}

/-- Every numeral may be the name of a label. -/
theorem Label.read?_numeral (f : Numeral.Form) : Label.read? f.text = .ok (.named f.text) := by
  have hreserved : isReserved f.text = false := by
    have hopen := f.not_mem_text (c := '\x7b') (by decide)
    have hclose := f.not_mem_text (c := '\x7d') (by decide)
    rw [isReserved]
    cases h : f.text with
    | nil => rfl
    | cons c rest =>
      rw [h, List.mem_cons, not_or] at hopen hclose
      simp [Ne.symm hopen.1, Ne.symm hclose.1]
  exact Label.read?_eq_ok_iff.mpr ⟨rfl, f.text_ne_nil, hreserved, f.not_mem_text (by decide),
    f.not_mem_text (by decide)⟩

/-! ### Immediates and items of data -/

/-- What a numeral in the place of an immediate stands for: its number if that is within the limit,
and otherwise a label. -/
def numeralImm (f : Numeral.Form) (k : RefKind) : Imm :=
  if f.magnitude ≤ limit then .num f.int else .ref ⟨.named f.text, k⟩

theorem Imm.read?_numeral (f : Numeral.Form) (k : RefKind) (scopes : Scopes) :
    Imm.read? f.text k scopes = .ok (numeralImm f k) := by
  rw [Imm.read?, Numeral.read?_text, numeralImm]
  by_cases hle : f.magnitude ≤ limit
  · rw [if_pos hle, if_pos hle]
  · have hloop : f.text ≠ "loop".toList := fun h =>
      f.not_mem_text (c := 'l') (by decide) (h ▸ by decide)
    have hbreak : f.text ≠ "break".toList := fun h =>
      f.not_mem_text (c := 'k') (by decide) (h ▸ by decide)
    rw [if_neg hle, if_neg hle]
    dsimp only
    rw [if_neg hloop, if_neg hbreak, Label.read?_numeral]
    rfl

variable {kind : List Char} {k : RefKind} {tk : Token}

theorem eq_text_of_read? {t : List Char} (h : RefKind.read? t = some k) : t = k.text := by
  rw [RefKind.read?] at h
  split at h
  · next ht =>
    cases h
    exact ht
  · split at h
    · next ht =>
      cases h
      exact ht
    · cases h

/-- The kind of a reference has no dot in it. -/
theorem not_mem_kind (hkind : RefKind.read? (kind.map Char.toLower) = some k) : '.' ∉ kind := by
  intro hmem
  have hlower : '.' ∈ kind.map Char.toLower := List.mem_map.mpr ⟨'.', hmem, by decide⟩
  rw [eq_text_of_read? hkind] at hlower
  cases k <;> exact absurd hlower (by decide)

theorem Part.read?_numeral (hkind : RefKind.read? (kind.map Char.toLower) = some k)
    (htk : tk.val = f.text ++ '.' :: kind) :
    Part.read? cls scopes tk.val = .ok (.imm (numeralImm f k)) := by
  have hsplit := splitKind?_append (not_mem_kind hkind) f.text
  rw [htk, Part.read?_of_refKind hsplit hkind, Imm.read?_numeral]
  rfl

theorem DataItem.read?_numeral (hkind : RefKind.read? (kind.map Char.toLower) = some k)
    (htk : tk.val = f.text ++ '.' :: kind) :
    DataItem.read? tk.val =
      if f.magnitude ≤ limit then (checkRange dataRange f.int).map fun i => .words [Word.ofInt i]
      else .ok (.ref ⟨.named f.text, k⟩) := by
  have hsplit := splitKind?_append (not_mem_kind hkind) f.text
  rw [DataItem.read?, htk, hsplit, Option.bind_some]
  dsimp only
  rw [hkind, Option.map_some]
  dsimp only
  rw [Numeral.read?_text]
  by_cases hle : f.magnitude ≤ limit
  · rw [if_pos hle, if_pos hle]
  · rw [if_neg hle, if_neg hle, Label.read?_numeral]
    rfl

/-! ### References to names -/

/-- Only a token of the kind of a reference is an immediate. -/
theorem Part.exists_of_read?_eq_imm {t : List Char} {i : Imm}
    (h : Part.read? cls scopes t = .ok (.imm i)) :
    ∃ value k, immediate? t = some (value, k) ∧ Imm.read? value k scopes = .ok i := by
  rw [Part.read?] at h
  split at h
  · cases h
  split at h
  · cases h
  next value kind hsplit =>
  split at h
  · split at h <;> cases h
  split at h
  · split at h
    · split at h <;> cases h
    · cases h
  split at h
  · split at h <;> cases h
  split at h
  · split at h <;> cases h
  split at h
  · next k hkind =>
    obtain ⟨j, hj, heq⟩ := map_eq_ok_iff.mp h
    cases heq
    exact ⟨value, k, by simp only [immediate?, hsplit, Option.bind_some, hkind, Option.map_some],
      hj⟩
  · cases h

/-- A text that is read as the name of a label is not read as a number. -/
theorem Imm.eq_of_read?_eq_named {value name : List Char} {k k' : RefKind}
    (h : Imm.read? value k scopes = .ok (.ref ⟨.named name, k'⟩)) :
    value = name ∧ Numeral.read? value = none := by
  rw [Imm.read?] at h
  split at h
  · cases h
  · next hnone =>
    have hlabel {x : Except LineError Label}
        (h : (x >>= fun label => pure (.ref ⟨label, k⟩)) = .ok (Imm.ref ⟨.named name, k'⟩)) :
        x = .ok (.named name) := by
      obtain ⟨label, hlabel, hpair⟩ := bind_eq_ok_iff.mp h
      obtain ⟨rfl, -⟩ := LabelRef.mk.inj (Imm.ref.inj (pure_eq_ok_iff.mp hpair))
      exact hlabel
    refine ⟨?_, hnone⟩
    dsimp only at h
    split at h
    · have hstart := hlabel h
      rw [Scopes.keeper_start?, Scopes.start?] at hstart
      split at hstart <;> cases hstart
    split at h
    · have hend := hlabel h
      rw [Scopes.keeper_end?, Scopes.end?] at hend
      split at hend <;> cases hend
    · exact (Label.named.inj (Label.read?_eq_ok_iff.mp (hlabel h)).1).symm

theorem DataItem.read?_eq_none_of_named {t name : List Char} {k : RefKind}
    (h : DataItem.read? t = .ok (.ref ⟨.named name, k⟩)) : Numeral.read? name = none := by
  rw [DataItem.read?] at h
  split at h
  · cases h
  split at h
  · obtain ⟨i, -, heq⟩ := map_eq_ok_iff.mp h
    cases heq
  · next hnone =>
    obtain ⟨label, hlabel, heq⟩ := map_eq_ok_iff.mp h
    cases heq
    rwa [Label.named.inj (Label.read?_eq_ok_iff.mp hlabel).1]

/-- A numeral that is not read as a number is beyond the limit. -/
theorem limit_lt_of_read?_eq_none (h : Numeral.read? f.text = none) : limit < f.magnitude := by
  rw [Numeral.read?_text] at h
  refine Nat.lt_of_not_le fun hle => ?_
  rw [if_pos hle] at h
  cases h

/-! ### The immediates of an operation -/

namespace Draft

variable {d e : Draft} {x : Token × Imm}

/-- An immediate comes into a draft as a part. -/
theorem mem_imms_of_mem_add {part : Part} (h : d.add tk part = .ok e) (hx : x ∈ e.imms) :
    x ∈ d.imms ∨ part = .imm x.2 := by
  cases part with
  | operand o =>
    rw [add] at h
    split at h
    · cases h
    · cases h
      exact .inl hx
  | imm i =>
    rw [add] at h
    split at h
    · obtain ⟨slot, hslot, rfl⟩ := map_eq_ok_iff.mp h
      obtain ⟨-, rfl⟩ := once_eq_ok_iff.mp hslot
      rcases List.mem_append.mp hx with hsrc | hdst
      · obtain rfl := Option.some.inj (Option.mem_toList.mp hsrc)
        exact .inr rfl
      · exact .inl (List.mem_append_right _ hdst)
    · obtain ⟨slot, hslot, rfl⟩ := map_eq_ok_iff.mp h
      obtain ⟨-, rfl⟩ := once_eq_ok_iff.mp hslot
      rcases List.mem_append.mp hx with hsrc | hdst
      · exact .inl (List.mem_append_left _ hsrc)
      · obtain rfl := Option.some.inj (Option.mem_toList.mp hdst)
        exact .inr rfl
    · cases h
  | _ =>
    obtain ⟨slot, -, rfl⟩ := map_eq_ok_iff.mp h
    exact .inl hx

theorem exists_token_of_mem_imms {tokens : List Token} (h : d.read cls scopes tokens = .ok e)
    (hx : x ∈ e.imms) :
    x ∈ d.imms ∨ ∃ tk ∈ tokens, Part.read? cls scopes tk.val = .ok (.imm x.2) := by
  induction tokens generalizing d with
  | nil =>
    cases h
    exact .inl hx
  | cons tk rest ih =>
    obtain ⟨part, mid, hpart, hadd, hrest⟩ := read_cons_eq_ok_iff.mp h
    rcases ih hrest with hmid | ⟨other, hother, hread⟩
    · rcases mem_imms_of_mem_add hadd hmid with hd | rfl
      · exact .inl hd
      · exact .inr ⟨tk, List.mem_cons_self, hpart⟩
    · exact .inr ⟨other, List.mem_cons_of_mem tk hother, hread⟩

end Draft

/-- What an operation refers to stands on its line. -/
theorem exists_token_of_hasImm {mnemonic : Token} {rest : List Token} {op : Operation}
    {r : LabelRef} (h : readOperation cls scopes mnemonic rest = .ok op)
    (hr : op.HasImm (.ref r)) :
    ∃ tk ∈ rest, Part.read? cls scopes tk.val = .ok (.imm (.ref r)) := by
  obtain ⟨d, hd, hdescribes⟩ := readOperation_eq_ok_iff.mp h
  have hslot {slot : Option (Token × Imm)} (h : (slot.map (·.2)).getD .zero = .ref r) :
      ∃ tk, slot = some (tk, .ref r) := by
    rcases slot with _ | ⟨tk, i⟩
    · cases h
    · exact ⟨tk, by rw [show i = .ref r from h]⟩
  have hmem : ∃ tk, (tk, Imm.ref r) ∈ d.imms := by
    rcases hr with hsrc | hdst
    · obtain ⟨tk, htk⟩ := hslot (hdescribes.srcImm.symm.trans hsrc)
      exact ⟨tk, by simp [Draft.imms, htk]⟩
    · obtain ⟨tk, htk⟩ := hslot (hdescribes.dstImm.symm.trans hdst)
      exact ⟨tk, by simp [Draft.imms, htk]⟩
  obtain ⟨tk, htk⟩ := hmem
  rcases Draft.exists_token_of_mem_imms hd htk with hnone | hread
  · cases hnone
  · exact hread

/-! ### The items of a line of data -/

namespace DataDraft

variable {d e : DataDraft}

/-- What is made of a row of digits are words. -/
theorem flush_eq_ok (h : d.flush = .ok e) :
    e = d ∨ ∃ ws, e = ⟨.words ws :: d.items, []⟩ := by
  rw [flush] at h
  split at h
  · exact .inl (Except.ok.inj h).symm
  split at h
  · cases h
  · exact .inr ⟨_, (Except.ok.inj h).symm⟩

theorem items_subset_of_flush (h : d.flush = .ok e) : d.items ⊆ e.items := by
  rcases flush_eq_ok h with rfl | ⟨ws, rfl⟩
  · exact List.Subset.refl _
  · exact List.subset_cons_self _ _

theorem mem_of_mem_flush {r : LabelRef} (h : d.flush = .ok e) (hr : .ref r ∈ e.items) :
    .ref r ∈ d.items := by
  rcases flush_eq_ok h with rfl | ⟨ws, rfl⟩
  · exact hr
  · rcases List.mem_cons.mp hr with heq | hr
    · cases heq
    · exact hr

/-- A token is digits of a row, or an item behind one. -/
theorem add_eq_ok {t : List Char} (h : d.add t = .ok e) :
    (t.all Numeral.isDigit = true ∧ e.items = d.items) ∨
      ∃ mid item, d.flush = .ok mid ∧ DataItem.read? t = .ok item ∧
        e.items = item :: mid.items := by
  rw [add] at h
  split at h
  · next hdigits => exact .inl ⟨hdigits, by rw [← Except.ok.inj h]⟩
  · obtain ⟨mid, hmid, h⟩ := bind_eq_ok_iff.mp h
    obtain ⟨item, hitem, h⟩ := bind_eq_ok_iff.mp h
    exact .inr ⟨mid, item, hmid, hitem, by rw [← pure_eq_ok_iff.mp h]⟩

variable {items : List DataItem} {last : Token} {tokens : List Token}

theorem read_nil_eq_ok_iff :
    d.read last [] = .ok items ↔ ∃ e, d.flush = .ok e ∧ e.items.reverse = items := by
  rw [read, map_eq_ok_iff]
  simp only [at?_eq_ok_iff]

theorem read_cons_eq_ok_iff :
    d.read last (tk :: tokens) = .ok items ↔
      ∃ mid, d.add tk.val = .ok mid ∧ mid.read tk tokens = .ok items := by
  rw [read, bind_eq_ok_iff]
  simp only [at?_eq_ok_iff]

theorem items_subset_of_read (h : d.read last tokens = .ok items) : d.items ⊆ items := by
  induction tokens generalizing d last with
  | nil =>
    obtain ⟨e, he, rfl⟩ := read_nil_eq_ok_iff.mp h
    exact fun item hitem => List.mem_reverse.mpr (items_subset_of_flush he hitem)
  | cons tk rest ih =>
    obtain ⟨mid, hmid, hrest⟩ := read_cons_eq_ok_iff.mp h
    refine List.Subset.trans ?_ (ih hrest)
    rcases add_eq_ok hmid with ⟨-, heq⟩ | ⟨flushed, item, hflushed, -, heq⟩
    · rw [heq]
      exact List.Subset.refl _
    · rw [heq]
      exact List.subset_cons_of_subset _ (items_subset_of_flush hflushed)

/-- Every token that is not made of digits is an item of the line. -/
theorem exists_item_of_read (h : d.read last tokens = .ok items) (htk : tk ∈ tokens)
    (hdigits : tk.val.all Numeral.isDigit = false) :
    ∃ item ∈ items, DataItem.read? tk.val = .ok item := by
  induction tokens generalizing d last with
  | nil => cases htk
  | cons first rest ih =>
    obtain ⟨mid, hmid, hrest⟩ := read_cons_eq_ok_iff.mp h
    rcases List.mem_cons.mp htk with rfl | htk
    · rcases add_eq_ok hmid with ⟨hall, -⟩ | ⟨flushed, item, -, hitem, heq⟩
      · rw [hdigits] at hall
        cases hall
      · exact ⟨item, items_subset_of_read hrest (heq ▸ List.mem_cons_self), hitem⟩
    · exact ih hrest htk

/-- What a line of data refers to stands on it. -/
theorem exists_token_of_mem {r : LabelRef} (h : d.read last tokens = .ok items)
    (hr : .ref r ∈ items) :
    .ref r ∈ d.items ∨ ∃ tk ∈ tokens, DataItem.read? tk.val = .ok (.ref r) := by
  induction tokens generalizing d last with
  | nil =>
    obtain ⟨e, he, rfl⟩ := read_nil_eq_ok_iff.mp h
    exact .inl (mem_of_mem_flush he (List.mem_reverse.mp hr))
  | cons tk rest ih =>
    obtain ⟨mid, hmid, hrest⟩ := read_cons_eq_ok_iff.mp h
    rcases ih hrest with hin | ⟨other, hother, hread⟩
    · rcases add_eq_ok hmid with ⟨-, heq⟩ | ⟨flushed, item, hflushed, hitem, heq⟩
      · exact .inl (heq ▸ hin)
      · rw [heq] at hin
        rcases List.mem_cons.mp hin with rfl | hin
        · exact .inr ⟨tk, List.mem_cons_self, hitem⟩
        · exact .inl (mem_of_mem_flush hflushed hin)
    · exact .inr ⟨other, List.mem_cons_of_mem tk hother, hread⟩

end DataDraft

/-! ### Lines -/

namespace Statement

/-- A number stands in a statement in the place of an immediate, and fits there. -/
def HasNumber (i : Int) : Statement → Prop
  | op o => (o.srcImm = .num i ∧ i ∈ o.layout.sourceRange) ∨
      (o.dstImm = .num i ∧ i ∈ o.layout.destinationRange)
  | data items => i ∈ dataRange ∧ .words [Word.ofInt i] ∈ items
  | label _ => False

/-- A statement has a reference to a label. -/
def RefersTo (r : LabelRef) : Statement → Prop
  | op o => o.HasImm (.ref r)
  | data items => .ref r ∈ items
  | label _ => False

end Statement

theorem expectNone_eq_ok_iff {fault : SyntaxFault} {rest : List Token} {u : Unit} :
    expectNone fault rest = .ok u ↔ rest = [] := by
  cases rest <;> simp [expectNone]

/-- A line of more than one token is an operation or a line of data. -/
theorem op_or_data_of_readLine {first : Token} {rest : List Token} {stmt : Option Statement}
    (h : readLine scopes (first :: rest) = .ok (stmt, next)) (hrest : rest ≠ []) :
    (∃ cls op, stmt = some (.op op) ∧ readOperation cls scopes first rest = .ok op) ∨
      ∃ items, stmt = some (.data items) ∧ readData first rest = .ok items := by
  have halone {fault : SyntaxFault} {β : Type} {g : Unit → Checked β} {b : β} :
      (expectNone fault rest >>= g) ≠ .ok b := fun h => by
    obtain ⟨_, hnone, -⟩ := bind_eq_ok_iff.mp h
    exact hrest (expectNone_eq_ok_iff.mp hnone)
  rw [readLine] at h
  split at h
  · exact absurd h halone
  split at h
  · exact absurd h halone
  split at h
  · obtain ⟨items, hitems, h⟩ := bind_eq_ok_iff.mp h
    cases pure_eq_ok_iff.mp h
    exact .inr ⟨items, rfl, hitems⟩
  split at h
  · obtain ⟨op, hop, h⟩ := bind_eq_ok_iff.mp h
    cases pure_eq_ok_iff.mp h
    exact .inl ⟨_, op, rfl, hop⟩
  split at h
  · obtain ⟨op, hop, h⟩ := bind_eq_ok_iff.mp h
    cases pure_eq_ok_iff.mp h
    exact .inl ⟨_, op, rfl, hop⟩
  split at h
  · exact absurd h halone
  · cases h

section Numeral

variable {first : Token} {rest : List Token}

theorem hasNumber_of_readOperation {op : Operation} {i : Int}
    (h : readOperation cls scopes first rest = .ok op) (himm : op.HasImm (.num i)) :
    Statement.HasNumber i (.op op) := by
  obtain ⟨d, -, hdescribes⟩ := readOperation_eq_ok_iff.mp h
  rcases himm with hsrc | hdst
  · exact .inl ⟨hsrc, hdescribes.srcImm_mem i hsrc⟩
  · exact .inr ⟨hdst, hdescribes.dstImm_mem i hdst⟩

/-- What a numeral comes to in an operation. -/
theorem readsAs_of_readOperation (hkind : RefKind.read? (kind.map Char.toLower) = some k)
    (htk : tk.val = f.text ++ '.' :: kind) (hmem : tk ∈ rest) {op : Operation}
    (h : readOperation cls scopes first rest = .ok op) :
    (f.magnitude ≤ limit → Statement.HasNumber f.int (.op op)) ∧
      (limit < f.magnitude → Statement.RefersTo ⟨.named f.text, k⟩ (.op op)) := by
  have himm := hasImm_of_readOperation h hmem (Part.read?_numeral hkind htk)
  rw [numeralImm] at himm
  constructor
  · intro hle
    rw [if_pos hle] at himm
    exact hasNumber_of_readOperation h himm
  · intro hlt
    rwa [if_neg (Nat.not_le.mpr hlt)] at himm

/-- What a numeral comes to on a line of data. -/
theorem readsAs_of_readData (hkind : RefKind.read? (kind.map Char.toLower) = some k)
    (htk : tk.val = f.text ++ '.' :: kind) (hmem : tk ∈ rest) {items : List DataItem}
    (h : readData first rest = .ok items) :
    (f.magnitude ≤ limit → Statement.HasNumber f.int (.data items)) ∧
      (limit < f.magnitude → Statement.RefersTo ⟨.named f.text, k⟩ (.data items)) := by
  have hdot : tk.val.all Numeral.isDigit = false := by
    rw [htk, List.all_append, List.all_cons]
    simp [show Numeral.isDigit '.' = false by decide]
  obtain ⟨item, hitem, hread⟩ := DataDraft.exists_item_of_read h hmem hdot
  rw [DataItem.read?_numeral hkind htk] at hread
  constructor
  · intro hle
    rw [if_pos hle] at hread
    obtain ⟨i, hi, rfl⟩ := map_eq_ok_iff.mp hread
    obtain ⟨hrange, rfl⟩ := checkRange_eq_ok_iff.mp hi
    exact ⟨hrange, hitem⟩
  · intro hlt
    rw [if_neg (Nat.not_le.mpr hlt)] at hread
    cases hread
    exact hitem

/-- A label named like a numeral is referred to only if the number is beyond the limit. -/
theorem limit_lt_of_refersTo {s : Statement}
    (h : readLine scopes (first :: rest) = .ok (some s, next)) (hrest : rest ≠ [])
    (hr : s.RefersTo ⟨.named f.text, k⟩) : limit < f.magnitude := by
  rcases op_or_data_of_readLine h hrest with ⟨cls, op, hs, hop⟩ | ⟨items, hs, hitems⟩
  · obtain rfl := Option.some.inj hs
    obtain ⟨tk, -, hread⟩ := exists_token_of_hasImm hop hr
    obtain ⟨value, k', -, hvalue⟩ := Part.exists_of_read?_eq_imm hread
    obtain ⟨rfl, hnone⟩ := Imm.eq_of_read?_eq_named hvalue
    exact limit_lt_of_read?_eq_none hnone
  · obtain rfl := Option.some.inj hs
    rcases DataDraft.exists_token_of_mem hitems hr with hnone | ⟨tk, -, hread⟩
    · cases hnone
    · exact limit_lt_of_read?_eq_none (DataItem.read?_eq_none_of_named hread)

/-- **What a numeral in the place of an immediate comes to.** On every line with such a token that
is accepted, be it an operation or a line of data, the numeral stands for its number if that is
within the limit. The number then fits where it stands, so the line is refused if it does not, and
nothing on the line refers to a label of that name. Beyond the limit it is the other way round:
whatever the line is, the token is a reference to the label that is named by the text of the
numeral, and there is no number that it is too large to be. Behind an alias a numeric immediate is
found in the same way. -/
theorem readsAs_of_readLine (hkind : RefKind.read? (kind.map Char.toLower) = some k)
    (htk : tk.val = f.text ++ '.' :: kind) (hmem : tk ∈ rest) :
    (∀ s next, readLine scopes (first :: rest) = .ok (some s, next) →
      (f.magnitude ≤ limit → s.HasNumber f.int ∧ ∀ k', ¬ s.RefersTo ⟨.named f.text, k'⟩) ∧
      (limit < f.magnitude → s.RefersTo ⟨.named f.text, k⟩)) ∧
    (limit < f.magnitude →
      (∀ cls, Part.read? cls scopes tk.val = .ok (.imm (.ref ⟨.named f.text, k⟩))) ∧
      DataItem.read? tk.val = .ok (.ref ⟨.named f.text, k⟩)) ∧
    numericImm? tk.val = if f.magnitude ≤ limit ∧ k = .absolute then some f.int else none := by
  refine ⟨fun s next h => ?_, fun hlt => ?_, ?_⟩
  · have hrest : rest ≠ [] := List.ne_nil_of_mem hmem
    have hreads : (f.magnitude ≤ limit → s.HasNumber f.int) ∧
        (limit < f.magnitude → s.RefersTo ⟨.named f.text, k⟩) := by
      rcases op_or_data_of_readLine h hrest with ⟨cls, op, hs, hop⟩ | ⟨items, hs, hitems⟩
      · obtain rfl := Option.some.inj hs
        exact readsAs_of_readOperation hkind htk hmem hop
      · obtain rfl := Option.some.inj hs
        exact readsAs_of_readData hkind htk hmem hitems
    refine ⟨fun hle => ⟨hreads.1 hle, fun k' hr => ?_⟩, hreads.2⟩
    exact Nat.not_lt.mpr hle (limit_lt_of_refersTo h hrest hr)
  · have hnot : ¬ f.magnitude ≤ limit := Nat.not_le.mpr hlt
    constructor
    · intro cls
      rw [Part.read?_numeral hkind htk, numeralImm, if_neg hnot]
    · rw [DataItem.read?_numeral hkind htk, if_neg hnot]
  · rw [numericImm?, htk, splitKind?_append (not_mem_kind hkind)]
    dsimp only
    rw [eq_text_of_read? hkind, Numeral.read?_text]
    cases k with
    | absolute => simp [RefKind.text]
    | displacement => simp [RefKind.text]

end Numeral

/-- Tokens of a first line, at places that do not matter. -/
def lineOf (words : List String) : List Token := words.map fun word => ⟨⟨1, 1⟩, word.toList⟩

/-- A number with a sign and a prefix beside an operand, and one on a line of data that is one too
large to be read. -/
theorem readsAs_of_readLine_two :
    (∃ s, readLine ({} : Scopes) (lineOf ["copy", "4.val", "-0x1F.imm", "1.reg"])
        = .ok (some s, {}) ∧
      s.HasNumber (-31) ∧ ¬ s.RefersTo ⟨.named "-0x1F".toList, .absolute⟩) ∧
    ∃ s, readLine ({} : Scopes) (lineOf ["%", "80000000.DISP"]) = .ok (some s, {}) ∧
      s.RefersTo ⟨.named "80000000".toList, .displacement⟩ := by
  constructor
  · let f : Numeral.Form := ⟨true, true, "1F".toList, by decide, by decide⟩
    let tk : Token := ⟨⟨1, 1⟩, "-0x1F.imm".toList⟩
    have hkind : RefKind.read? ("imm".toList.map Char.toLower) = some .absolute := rfl
    have htk : tk.val = f.text ++ '.' :: "imm".toList := rfl
    have hmem : tk ∈ lineOf ["4.val", "-0x1F.imm", "1.reg"] := by decide
    have hread : ∃ s, readLine ({} : Scopes) (lineOf ["copy", "4.val", "-0x1F.imm", "1.reg"])
        = .ok (some s, {}) := ⟨_, rfl⟩
    obtain ⟨s, hs⟩ := hread
    obtain ⟨hnumber, hrefers⟩ := ((readsAs_of_readLine hkind htk hmem).1 s {} hs).1 (by decide)
    exact ⟨s, hs, hnumber, hrefers .absolute⟩
  · let f : Numeral.Form := ⟨false, false, "80000000".toList, by decide, by decide⟩
    let tk : Token := ⟨⟨1, 1⟩, "80000000.DISP".toList⟩
    have hkind : RefKind.read? ("DISP".toList.map Char.toLower) = some .displacement := rfl
    have htk : tk.val = f.text ++ '.' :: "DISP".toList := rfl
    have hmem : tk ∈ lineOf ["80000000.DISP"] := by decide
    have hread : ∃ s, readLine ({} : Scopes) (lineOf ["%", "80000000.DISP"])
        = .ok (some s, {}) := ⟨_, rfl⟩
    obtain ⟨s, hs⟩ := hread
    exact ⟨s, hs, ((readsAs_of_readLine hkind htk hmem).1 s {} hs).2 (by decide)⟩

/-- A copy of the address of a label whose name is made of digits. -/
def copyOfNamed : Operation where
  opcode := .copy
  src := .imm
  dst := .reg .r1
  srcImm := .ref ⟨.named "80000000".toList, .absolute⟩
  dstImm := .zero
  effect := .always
  push := false

/-- **A row of digits refers to a label.** The line is accepted, and what it copies is the address
of the label. -/
theorem exists_name_of_digits :
    readLine ({} : Scopes) (lineOf ["copy", "4.val", "80000000.imm", "1.reg"])
      = .ok (some (.op copyOfNamed), {}) ∧
    ∀ labels : LabelMap, labels[Label.named "80000000".toList]? = some 5 →
      ∀ address, (copyOfNamed.toInst labels address).map (·.srcImm) = .ok 5 := by
  refine ⟨by rfl, fun labels hlabel address => ?_⟩
  have hsrc : copyOfNamed.srcImm.resolve labels address = .ok 5 := by
    rw [copyOfNamed, Imm.resolve, LabelRef.resolve, hlabel]
    rfl
  rw [Operation.toInst, hsrc]
  rfl

end Assembly

end WordMachine
