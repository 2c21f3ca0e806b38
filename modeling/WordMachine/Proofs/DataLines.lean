import WordMachine.Proofs.Grammar
import WordMachine.Proofs.Reassembly

/-!
# What a line of data stands for

The tokens behind the mark of a line of data are digits or items. Items separate the digits into
runs, and all that counts of a run is the text that its tokens make one behind another. This text
is cut into words, four digits each (`Numeral.Fills`). Thus a line is a run, or a run, an item and
a line (`DataLine`), and nothing is said of tokens that a run is cut into.

## How the reader meets this

A draft has the digits of the run that is not yet over. It goes on as the line does that begins
with this run (`DataDraft.read_eq_ok_iff`). Where the run ends is decided by the first token that is
not made of digits, since items have a dot in them, which is no digit (`dataLine_append_cons_iff`).

## Main results

* `readData_eq_ok_iff`: a line of data is read as the items it stands for
* `exists_dataLine_iff`: the lines that stand for items
* `exists_emitItems`: what is emitted for items fills the room that is kept for them
* `assemble?_digits`: the digits of words on a line of data are assembled to these words
* `readData_decodes`: all of this
-/

namespace WordMachine

/-! ### Words in digits -/

namespace Numeral

/-- The words that a text consists of, four digits each, the highest first. -/
inductive Fills : List Char → List Word → Prop
  | nil : Fills [] []
  | cons {a b c d : Char} {w : Word} {t : List Char} {ws : List Word}
    (hw : w.toNat = 4096 * digit a + 256 * digit b + 16 * digit c + digit d) (h : Fills t ws) :
    Fills (a :: b :: c :: d :: t) (w :: ws)

variable {t u : List Char} {c : Char} {ws vs : List Word}

theorem Fills.append (h : Fills t ws) (hu : Fills u vs) : Fills (t ++ u) (ws ++ vs) := by
  induction h with
  | nil => exact hu
  | cons hw h ih => exact .cons hw ih

theorem Fills.dvd (h : Fills t ws) : 4 ∣ t.length := by
  induction h with
  | nil => exact Nat.dvd_zero 4
  | cons hw h ih =>
    simp only [List.length_cons]
    omega

theorem Fills.eq_nil_iff (h : Fills t ws) : t = [] ↔ ws = [] := by
  cases h <;> simp

theorem isDigit_iff : isDigit c = true ↔
    (48 ≤ c.toNat ∧ c.toNat ≤ 57) ∨ (97 ≤ c.toNat ∧ c.toNat ≤ 102) ∨
      (65 ≤ c.toNat ∧ c.toNat ≤ 70) := by
  have hle (a b : Char) : a ≤ b ↔ a.toNat ≤ b.toNat := Iff.rfl
  simp [isDigit, hle, or_assoc]

theorem digit_eq (c : Char) : digit c =
    if c.toNat ≤ 57 then c.toNat - 48 else if c.toNat ≤ 70 then c.toNat - 55 else c.toNat - 87 := by
  have hle (a b : Char) : a ≤ b ↔ a.toNat ≤ b.toNat := Iff.rfl
  simp [digit, hle]

theorem digit_lt (h : isDigit c = true) : digit c < 16 := by
  rw [isDigit_iff] at h
  rw [digit_eq]
  split
  · omega
  · split <;> omega

theorem value_four (a b c d : Char) :
    value [a, b, c, d] = 4096 * digit a + 256 * digit b + 16 * digit c + digit d := by
  simp only [value, List.foldl_cons, List.foldl_nil]
  omega

theorem Fills.unique (h : Fills t ws) (h' : Fills t vs) : ws = vs := by
  induction h generalizing vs with
  | nil =>
    cases h'
    rfl
  | cons hw h ih =>
    cases h' with
    | cons hv h' => rw [ih h', UInt16.toNat_inj.mp (hw.trans hv.symm)]

/-- The reader cuts any digits that come to whole words as it should. -/
theorem exists_fills (done : List Word) (ht : t.all isDigit = true) (hlength : 4 ∣ t.length) :
    ∃ ws, Fills t ws ∧ Assembly.hexWordsAfter done t = done.reverse ++ ws := by
  fun_induction Assembly.hexWordsAfter done t with
  | case1 done a b c d rest ih =>
    simp only [List.all_cons, Bool.and_eq_true] at ht
    obtain ⟨ha, hb, hc, hd, hrest⟩ := ht
    simp only [List.length_cons] at hlength
    obtain ⟨ws, hws, heq⟩ := ih hrest (by omega)
    refine ⟨UInt16.ofNat (value [a, b, c, d]) :: ws, .cons ?_ hws, by simp [heq]⟩
    have := digit_lt ha
    have := digit_lt hb
    have := digit_lt hc
    have := digit_lt hd
    rw [value_four, Word.toNat_ofNat_of_lt (by omega)]
  | case2 t done h =>
    have hnil : t = [] := by
      rcases t with _ | ⟨a, _ | ⟨b, _ | ⟨c, _ | ⟨d, rest⟩⟩⟩⟩
      · rfl
      · simp at hlength
      · simp at hlength
      · simp at hlength
      · exact (h a b c d rest rfl).elim
    subst hnil
    exact ⟨[], .nil, (List.append_nil _).symm⟩

/-- Digits that come to whole words are cut into words in one way, which is that of the reader. -/
theorem fills_iff (ht : t.all isDigit = true) :
    Fills t ws ↔ 4 ∣ t.length ∧ Assembly.hexWords t = ws := by
  constructor
  · intro h
    obtain ⟨vs, hvs, heq⟩ := exists_fills [] ht h.dvd
    exact ⟨h.dvd, heq.trans (hvs.unique h)⟩
  · rintro ⟨hlength, rfl⟩
    obtain ⟨vs, hvs, heq⟩ := exists_fills [] ht hlength
    rwa [Assembly.hexWords, heq]

/-! ### Capitals -/

theorem isDigit_of_toLower (h : isDigit c.toLower = true) :
    isDigit c = true ∧ digit c.toLower = digit c := by
  by_cases hcapital : c.val ≥ 'A'.val ∧ c.val ≤ 'Z'.val
  · have hge : 65 ≤ c.toNat := hcapital.1
    have hle : c.toNat ≤ 90 := hcapital.2
    have hval : c.toLower.val = c.val + 32 := congrArg Char.val (dif_pos hcapital)
    have hlower : c.toLower.toNat = c.toNat + 32 := by
      change c.toLower.val.toNat = c.val.toNat + 32
      have hsmall : c.val.toNat ≤ 90 := hle
      rw [hval, UInt32.toNat_add]
      exact Nat.mod_eq_of_lt (by simp; omega)
    rw [isDigit_iff, hlower] at h
    rw [isDigit_iff, digit_eq, digit_eq, hlower]
    refine ⟨by omega, ?_⟩
    rw [if_neg (by omega), if_neg (by omega), if_neg (by omega), if_pos (by omega)]
    omega
  · have hlower : c.toLower = c := dif_neg hcapital
    rw [hlower] at h ⊢
    exact ⟨h, rfl⟩

/-- Capitals are digits as good as small letters. -/
theorem Fills.of_map_toLower (ht : (t.map Char.toLower).all isDigit = true)
    (h : Fills (t.map Char.toLower) ws) : t.all isDigit = true ∧ Fills t ws := by
  have hdigit : ∀ c ∈ t, isDigit c = true ∧ digit c.toLower = digit c := fun c hc =>
    isDigit_of_toLower (List.all_eq_true.mp ht _ (List.mem_map_of_mem hc))
  refine ⟨List.all_eq_true.mpr fun c hc => (hdigit c hc).1, ?_⟩
  clear ht
  generalize hu : t.map Char.toLower = u at h
  induction h generalizing t with
  | nil =>
    rw [List.map_eq_nil_iff.mp hu]
    exact .nil
  | @cons a b c d w u ws hw h ih =>
    rcases t with _ | ⟨a', _ | ⟨b', _ | ⟨c', _ | ⟨d', t⟩⟩⟩⟩ <;>
      simp only [List.map_cons, List.map_nil, List.cons.injEq, reduceCtorEq, and_false] at hu
    obtain ⟨rfl, rfl, rfl, rfl, hu⟩ := hu
    simp only [List.forall_mem_cons] at hdigit
    obtain ⟨ha, hb, hc, hd, ht⟩ := hdigit
    exact .cons (by rw [hw, ha.2, hb.2, hc.2, hd.2]) (ih ht hu)

/-! ### Written words -/

theorem value_zeros (n : Nat) (t : List Char) : value (List.replicate n '0' ++ t) = value t := by
  induction n with
  | zero => rfl
  | succ n ih =>
    rw [← ih]
    rfl

theorem fills_word (w : Word) : (word w).all isDigit = true ∧ Fills (word w) [w] := by
  obtain ⟨hdigits, hvalue⟩ := value_hex w.toNat
  have hle : (hex w.toNat).length ≤ 4 :=
    (Nat.length_toDigits_le_iff (by decide) (by decide)).mpr (Word.toNat_lt w)
  have hlength : (word w).length = 4 := by
    simp only [word, List.length_append, List.length_replicate]
    omega
  have hword : value (word w) = w.toNat := (value_zeros _ _).trans hvalue
  refine ⟨?_, ?_⟩
  · simp only [word, List.all_append, hdigits, Bool.and_true]
    exact List.all_eq_true.mpr fun c hc => by rw [List.eq_of_mem_replicate hc]; rfl
  · obtain ⟨a, b, c, d, habcd⟩ := List.length_eq_four.mp hlength
    rw [habcd] at hword ⊢
    exact .cons (hword.symm.trans (value_four a b c d)) .nil

theorem fills_words (ws : List Word) :
    (ws.flatMap word).all isDigit = true ∧ Fills (ws.flatMap word) ws := by
  induction ws with
  | nil => exact ⟨rfl, .nil⟩
  | cons w ws ih =>
    rw [List.flatMap_cons, List.all_append, (fills_word w).1, ih.1]
    exact ⟨rfl, (fills_word w).2.append ih.2⟩

end Numeral

namespace Assembly

/-! ### Runs and items -/

/-- Whether a token is made of digits alone. -/
def isDigits (tk : Token) : Bool := tk.val.all Numeral.isDigit

/-- The digits of tokens, one token behind another. -/
def digitsOf (tokens : List Token) : List Char := tokens.flatMap (·.val)

/-- What a run of digits stands for: its words, and nothing if there are no digits. -/
inductive DigitRun : List Char → List DataItem → Prop
  | empty : DigitRun [] []
  | words {t : List Char} {ws : List Word} (hne : t ≠ []) (h : Numeral.Fills t ws) :
    DigitRun t [.words ws]

/-- The ways of spelling an item that is not made of digits alone. A number is one word, and what
cannot be read as a number is the name of a label. -/
inductive DataItem.Spells : List Char → DataItem → Prop
  | number {value kind : List Char} {k : RefKind} {i : Int} {w : Word}
    (hkind : kind.map Char.toLower = k.text) (hvalue : Numeral.read? value = some i)
    (hi : -0x8000 ≤ i ∧ i ≤ 0xFFFF) (hw : (w.toNat : Int) = i % 0x10000) :
    Spells (value ++ '.' :: kind) (.words [w])
  | name {value kind : List Char} {k : RefKind} (hkind : kind.map Char.toLower = k.text)
    (hvalue : Numeral.read? value = none) (hname : Label.read? value = .ok (.named value)) :
    Spells (value ++ '.' :: kind) (.ref ⟨.named value, k⟩)

/-- What the tokens behind the mark of a line of data stand for: a run, and behind it an item and
the rest of the line unless the line ends there. -/
inductive DataLine : List Token → List DataItem → Prop
  | run {tokens : List Token} {items : List DataItem} (hdigits : ∀ tk ∈ tokens, isDigits tk = true)
    (hrun : DigitRun (digitsOf tokens) items) : DataLine tokens items
  | item {tokens rest : List Token} {tk : Token} {items more : List DataItem} {item : DataItem}
    (hdigits : ∀ tk ∈ tokens, isDigits tk = true) (hrun : DigitRun (digitsOf tokens) items)
    (hitem : DataItem.Spells tk.val item) (h : DataLine rest more) :
    DataLine (tokens ++ tk :: rest) (items ++ item :: more)

variable {tokens rest : List Token} {tk mark : Token} {items : List DataItem} {item : DataItem}
  {t : List Char}

theorem DataItem.Spells.isDigits_eq_false (h : DataItem.Spells tk.val item) :
    isDigits tk = false := by
  have hdot : ∀ value kind : List Char, (value ++ '.' :: kind).all Numeral.isDigit = false := by
    intro value kind
    rw [List.all_append, List.all_cons, show Numeral.isDigit '.' = false by decide,
      Bool.false_and, Bool.and_false]
  rw [isDigits]
  generalize tk.val = t at h
  cases h <;> exact hdot _ _

theorem DataItem.read?_eq_ok_iff : DataItem.read? t = .ok item ↔ DataItem.Spells t item := by
  constructor
  · intro h
    rw [DataItem.read?] at h
    split at h
    · cases h
    next value k hparts =>
    obtain ⟨⟨value', kind⟩, hsplit, hpair⟩ := Option.bind_eq_some_iff.mp hparts
    obtain ⟨k', hread, heq⟩ := Option.map_eq_some_iff.mp hpair
    obtain ⟨rfl, rfl⟩ := Prod.mk.inj heq
    obtain ⟨written, rfl, hwritten⟩ := exists_of_splitKind? hsplit
    have hkind := hwritten.trans (eq_text_of_read? hread)
    split at h
    · next i hi =>
      obtain ⟨j, hj, hitem⟩ := map_eq_ok_iff.mp h
      obtain ⟨hmem, rfl⟩ := checkRange_eq_ok_iff.mp hj
      refine hitem ▸ .number hkind hi (Range.mem_iff.mp hmem) ?_
      rw [Word.toNat_ofInt]
      omega
    · next hnone =>
      obtain ⟨label, hlabel, hitem⟩ := map_eq_ok_iff.mp h
      have hname := (Label.read?_eq_ok_iff.mp hlabel).1
      subst hname
      exact hitem ▸ .name hkind hnone hlabel
  · intro h
    have hsplit {value kind : List Char} {k : RefKind} (hkind : kind.map Char.toLower = k.text) :
        splitKind? (value ++ '.' :: kind) = some (value, k.text) :=
      splitKind?_of_kind hkind (by cases k <;> decide) value
    cases h with
    | @number value kind k i w hkind hvalue hi hw =>
      have hword : Word.ofInt i = w := by
        rw [← UInt16.toNat_inj, Word.toNat_ofInt]
        omega
      simp only [DataItem.read?, hsplit hkind, Option.bind_some, RefKind.read?_text,
        Option.map_some, hvalue]
      exact map_eq_ok_iff.mpr
        ⟨i, checkRange_eq_ok_iff.mpr ⟨Range.mem_iff.mpr hi, rfl⟩, by rw [hword]⟩
    | name hkind hvalue hname =>
      simp only [DataItem.read?, hsplit hkind, Option.bind_some, RefKind.read?_text,
        Option.map_some, hvalue, hname]
      rfl

/-! ### Runs -/

theorem exists_digitRun_iff (ht : t.all Numeral.isDigit = true) :
    (∃ items, DigitRun t items) ↔ 4 ∣ t.length := by
  constructor
  · rintro ⟨items, h⟩
    cases h with
    | empty => exact Nat.dvd_zero 4
    | words hne h => exact h.dvd
  · intro hlength
    by_cases hne : t = []
    · exact ⟨[], hne ▸ .empty⟩
    · exact ⟨_, .words hne ((Numeral.fills_iff ht).mpr ⟨hlength, rfl⟩)⟩

theorem DataDraft.flush_eq_ok_iff {d e : DataDraft}
    (hrun : d.run.reverse.all Numeral.isDigit = true) : d.flush = .ok e ↔
      ∃ front, DigitRun d.run.reverse front ∧ e = ⟨front.reverse ++ d.items, []⟩ := by
  obtain ⟨items, run⟩ := d
  rw [flush]
  split
  · next hempty =>
    obtain rfl := List.isEmpty_iff.mp hempty
    constructor
    · intro h
      exact ⟨[], .empty, (Except.ok.inj h).symm⟩
    · rintro ⟨front, hfront, rfl⟩
      cases hfront with
      | empty => rfl
      | words hne h => exact absurd rfl hne
  · next hempty =>
    rw [List.isEmpty_iff] at hempty
    have hne : run.reverse ≠ [] := mt List.reverse_eq_nil_iff.mp hempty
    have hdvd : 4 ∣ run.reverse.length ↔ run.length % 4 = 0 := by
      rw [List.length_reverse, Nat.dvd_iff_mod_eq_zero]
    split
    · next hragged =>
      simp only [reduceCtorEq, false_iff]
      rintro ⟨front, hfront, -⟩
      exact hragged (hdvd.mp ((exists_digitRun_iff hrun).mp ⟨front, hfront⟩))
    · next hwhole =>
      rw [not_not] at hwhole
      have hfills : ∀ ws, Numeral.Fills run.reverse ws ↔ hexWords run.reverse = ws := fun ws =>
        (Numeral.fills_iff hrun).trans (and_iff_right (hdvd.mpr hwhole))
      constructor
      · intro h
        exact ⟨_, .words hne ((hfills _).mpr rfl), (Except.ok.inj h).symm⟩
      · rintro ⟨front, hfront, rfl⟩
        generalize hu : run.reverse = u at hfront hne hfills
        cases hfront with
        | empty => exact absurd rfl hne
        | words _ h =>
          rw [(hfills _).mp h]
          rfl

/-! ### Lines -/

/-- A run that an item ends is the same however the tokens are split. -/
theorem eq_of_append_cons {front more : List Token} {other : Token}
    (hdigits : ∀ tk ∈ tokens, isDigits tk = true) (htk : isDigits tk = false)
    (hfront : ∀ tk ∈ front, isDigits tk = true) (hother : isDigits other = false)
    (h : tokens ++ tk :: rest = front ++ other :: more) :
    tokens = front ∧ tk = other ∧ rest = more := by
  induction tokens generalizing front with
  | nil =>
    cases front with
    | nil => exact ⟨rfl, List.cons.inj h⟩
    | cons first front =>
      obtain ⟨rfl, -⟩ := List.cons.inj h
      rw [hfront tk List.mem_cons_self] at htk
      cases htk
  | cons first tokens ih =>
    rw [List.forall_mem_cons] at hdigits
    cases front with
    | nil =>
      obtain ⟨rfl, -⟩ := List.cons.inj h
      rw [hdigits.1] at hother
      cases hother
    | cons first' front =>
      obtain ⟨rfl, hrest⟩ := List.cons.inj h
      obtain ⟨rfl, hsame⟩ := ih hdigits.2 (List.forall_mem_cons.mp hfront).2 hrest
      exact ⟨rfl, hsame⟩

theorem dataLine_append_cons_iff (hdigits : ∀ tk ∈ tokens, isDigits tk = true)
    (htk : isDigits tk = false) : DataLine (tokens ++ tk :: rest) items ↔
      ∃ front item more, DigitRun (digitsOf tokens) front ∧ DataItem.Spells tk.val item ∧
        DataLine rest more ∧ items = front ++ item :: more := by
  constructor
  · intro h
    generalize hall : tokens ++ tk :: rest = all at h
    cases h with
    | run hdigits' hrun =>
      rw [hdigits' tk (hall ▸ by simp)] at htk
      cases htk
    | item hfront hrun hitem h =>
      obtain ⟨rfl, rfl, rfl⟩ :=
        eq_of_append_cons hdigits htk hfront hitem.isDigits_eq_false hall
      exact ⟨_, _, _, hrun, hitem, h, rfl⟩
  · rintro ⟨front, item, more, hrun, hitem, h, rfl⟩
    exact .item hdigits hrun hitem h

theorem dataLine_iff_digitRun (hdigits : ∀ tk ∈ tokens, isDigits tk = true) :
    DataLine tokens items ↔ DigitRun (digitsOf tokens) items := by
  refine ⟨fun h => ?_, .run hdigits⟩
  cases h with
  | run hdigits hrun => exact hrun
  | @item _ _ tk _ _ _ _ _ hitem _ =>
    have htk := hdigits tk (by simp)
    rw [hitem.isDigits_eq_false] at htk
    cases htk

theorem all_digitsOf (hdigits : ∀ tk ∈ tokens, isDigits tk = true) :
    (digitsOf tokens).all Numeral.isDigit = true := by
  rw [digitsOf, List.all_flatMap]
  exact List.all_eq_true.mpr hdigits

namespace DataDraft

variable {d e : DataDraft} {last : Token} {run : List Token}

theorem add_of_digits (h : isDigits tk = true) :
    d.add tk.val = .ok { d with run := tk.val.reverse ++ d.run } :=
  if_pos h

theorem add_of_item (h : isDigits tk = false) : d.add tk.val = .ok e ↔
    ∃ mid item, d.flush = .ok mid ∧ DataItem.Spells tk.val item ∧
      e = { mid with items := item :: mid.items } := by
  rw [add, if_neg (fun hall => by rw [isDigits, hall] at h; cases h), bind_eq_ok_iff]
  simp only [bind_eq_ok_iff, pure_eq_ok_iff, DataItem.read?_eq_ok_iff]
  exact exists_congr fun mid => by simp [eq_comm]

/-- A draft goes on as a line does that begins with the run which the draft is in. -/
theorem read_eq_ok_iff (hdigits : ∀ tk ∈ run, isDigits tk = true)
    (hrun : d.run.reverse = digitsOf run) : d.read last tokens = .ok items ↔
      ∃ more, DataLine (run ++ tokens) more ∧ items = d.items.reverse ++ more := by
  induction tokens generalizing d last run with
  | nil =>
    have hflush {e : DataDraft} := @flush_eq_ok_iff d e (hrun ▸ all_digitsOf hdigits)
    rw [read_nil_eq_ok_iff, List.append_nil]
    simp only [hflush, dataLine_iff_digitRun hdigits, hrun]
    constructor
    · rintro ⟨e, ⟨front, hfront, rfl⟩, rfl⟩
      exact ⟨front, hfront, by simp⟩
    · rintro ⟨front, hfront, rfl⟩
      exact ⟨_, ⟨front, hfront, rfl⟩, by simp⟩
  | cons tk rest ih =>
    rw [read_cons_eq_ok_iff]
    cases htk : isDigits tk with
    | true =>
      -- The line stays the same, and its run is one token longer.
      have hdigits' : ∀ tk' ∈ run ++ [tk], isDigits tk' = true :=
        List.forall_mem_append.mpr ⟨hdigits, List.forall_mem_singleton.mpr htk⟩
      have hnext := @ih { d with run := tk.val.reverse ++ d.run } tk (run ++ [tk]) hdigits'
        (by simp [hrun, digitsOf])
      rw [List.append_assoc, List.singleton_append] at hnext
      simp only [add_of_digits htk, Except.ok.injEq, exists_eq_left', hnext]
    | false =>
      -- The run is over, and the next one begins without a token.
      have hflush {e : DataDraft} := @flush_eq_ok_iff d e (hrun ▸ all_digitsOf hdigits)
      have hnext (e : DataDraft) (he : e.run = []) := @ih e tk [] (by simp) (by rw [he]; rfl)
      simp only [add_of_item htk, hflush, hrun, dataLine_append_cons_iff hdigits htk]
      constructor
      · rintro ⟨e, ⟨mid, item, ⟨front, hfront, rfl⟩, hitem, rfl⟩, hread⟩
        obtain ⟨more, hmore, rfl⟩ := (hnext _ rfl).mp hread
        exact ⟨_, ⟨front, item, more, hfront, hitem, hmore, rfl⟩, by simp⟩
      · rintro ⟨_, ⟨front, item, more, hfront, hitem, hmore, rfl⟩, rfl⟩
        refine ⟨_, ⟨_, item, ⟨front, hfront, rfl⟩, hitem, rfl⟩, ?_⟩
        exact (hnext _ rfl).mpr ⟨more, hmore, by simp⟩

end DataDraft

/-- **A line of data is read as the items it stands for.** -/
theorem readData_eq_ok_iff : readData mark tokens = .ok items ↔ DataLine tokens items := by
  rw [readData, @DataDraft.read_eq_ok_iff tokens items {} mark [] (by simp) rfl]
  simp

/-- If not all tokens are made of digits, there is a first one that is not. -/
theorem digits_or_exists_append (tokens : List Token) : (∀ tk ∈ tokens, isDigits tk = true) ∨
    ∃ run tk rest, tokens = run ++ tk :: rest ∧ (∀ tk ∈ run, isDigits tk = true) ∧
      isDigits tk = false := by
  cases hfind : tokens.find? (!isDigits ·) with
  | none => exact .inl (by simpa using hfind)
  | some tk =>
    obtain ⟨htk, run, rest, rfl, hrun⟩ := List.find?_eq_some_iff_append.mp hfind
    exact .inr ⟨run, tk, rest, rfl, by simpa using hrun, by simpa using htk⟩

theorem splitOnP_of_digits (hdigits : ∀ tk ∈ tokens, isDigits tk = true) :
    tokens.splitOnP (!isDigits ·) = [tokens] :=
  List.splitOnP_eq_singleton fun tk htk => by rw [hdigits tk htk]; rfl

/-- **The lines that stand for items.** -/
theorem exists_dataLine_iff (tokens : List Token) : (∃ items, DataLine tokens items) ↔
    (∀ run ∈ tokens.splitOnP (!isDigits ·), 4 ∣ (digitsOf run).length) ∧
      ∀ tk ∈ tokens, isDigits tk = false → ∃ item, DataItem.Spells tk.val item := by
  obtain hdigits | ⟨run, tk, rest, rfl, hdigits, htk⟩ := digits_or_exists_append tokens
  · have hnone : ∀ tk ∈ tokens, isDigits tk = false → ∃ item, DataItem.Spells tk.val item := by
      intro tk htk h
      rw [hdigits tk htk] at h
      cases h
    simp only [dataLine_iff_digitRun hdigits, exists_digitRun_iff (all_digitsOf hdigits),
      splitOnP_of_digits hdigits, List.forall_mem_singleton]
    exact (and_iff_left hnone).symm
  · have hlong : rest.length < (run ++ tk :: rest).length := by
      rw [List.length_append, List.length_cons]
      omega
    have ih := exists_dataLine_iff rest
    have hsplit : (run ++ tk :: rest).splitOnP (!isDigits ·) =
        run :: rest.splitOnP (!isDigits ·) := by
      rw [List.splitOnP_append_cons run rest (by rw [htk]; rfl), splitOnP_of_digits hdigits]
      rfl
    have hrun := exists_digitRun_iff (all_digitsOf hdigits)
    rw [hsplit, List.forall_mem_cons]
    constructor
    · rintro ⟨items, h⟩
      obtain ⟨front, item, more, hfront, hitem, hmore, -⟩ :=
        (dataLine_append_cons_iff hdigits htk).mp h
      obtain ⟨hruns, hitems⟩ := ih.mp ⟨more, hmore⟩
      refine ⟨⟨hrun.mp ⟨front, hfront⟩, hruns⟩, fun other hother hnot => ?_⟩
      rcases List.mem_append.mp hother with hin | hin
      · rw [hdigits other hin] at hnot
        cases hnot
      · rcases List.mem_cons.mp hin with rfl | hin
        · exact ⟨item, hitem⟩
        · exact hitems other hin hnot
    · rintro ⟨⟨hwhole, hruns⟩, hitems⟩
      obtain ⟨front, hfront⟩ := hrun.mpr hwhole
      obtain ⟨item, hitem⟩ := hitems tk (by simp) htk
      obtain ⟨more, hmore⟩ := ih.mpr ⟨hruns, fun other hother =>
        hitems other (List.mem_append_right run (List.mem_cons_of_mem tk hother))⟩
      exact ⟨_, .item hdigits hfront hitem hmore⟩
termination_by tokens.length

/-! ### The words of a line -/

theorem DataItem.exists_encodeAll {labels : LabelMap} {address : Nat}
    (h : ∀ r, DataItem.ref r ∈ items → r.label ∈ labels) :
    ∃ ws, encodeAll labels address items = .ok ws := by
  induction items generalizing address with
  | nil => exact ⟨[], rfl⟩
  | cons item items ih =>
    have hitem : ∃ us, item.resolve labels (UInt16.ofNat address) = .ok us := by
      cases item with
      | words ws => exact ⟨ws, rfl⟩
      | ref r =>
        have hlabel := Std.TreeMap.mem_iff_isSome_getElem?.mp (h r List.mem_cons_self)
        obtain ⟨target, htarget⟩ := Option.isSome_iff_exists.mp hlabel
        rw [DataItem.resolve, LabelRef.resolve, htarget]
        cases r.kind <;> exact ⟨_, rfl⟩
    obtain ⟨us, hus⟩ := hitem
    obtain ⟨vs, hvs⟩ := @ih (address + item.size) fun r hr => h r (List.mem_cons_of_mem item hr)
    exact ⟨us ++ vs, encodeAll_cons_eq_ok_iff.mpr ⟨us, hus, vs, hvs, rfl⟩⟩

/-- Items come to as many words as there was room kept for. -/
theorem exists_emitItems {labels : LabelMap} (address : Nat)
    (h : ∀ r, DataItem.ref r ∈ items → r.label ∈ labels) :
    ∃ ws, emitItems labels address [] [] items = (ws, []) ∧
      ws.length = (Statement.data items).size := by
  obtain ⟨ws, hws⟩ := @DataItem.exists_encodeAll items labels address h
  exact ⟨ws, DataItem.emitItems_of_encodeAll [] [] hws, DataItem.length_encodeAll hws⟩

/-! ### Words written in digits -/

variable {ws : List Word}

/-- Words that are cut into tokens in any way, in small letters or capitals. -/
theorem dataLine_of_words
    (h : (digitsOf tokens).map Char.toLower = ws.flatMap Numeral.word) :
    (∀ tk ∈ tokens, isDigits tk = true) ∧
      DataLine tokens (if ws = [] then [] else [.words ws]) := by
  obtain ⟨hall, hfills⟩ := Numeral.fills_words ws
  rw [← h] at hall hfills
  obtain ⟨hdigits, hfills⟩ := hfills.of_map_toLower hall
  rw [digitsOf, List.all_flatMap] at hdigits
  have htokens : ∀ tk ∈ tokens, isDigits tk = true := List.all_eq_true.mp hdigits
  refine ⟨htokens, (dataLine_iff_digitRun htokens).mpr ?_⟩
  by_cases hne : digitsOf tokens = []
  · rw [if_pos (hfills.eq_nil_iff.mp hne), hne]
    exact .empty
  · rw [if_neg (mt hfills.eq_nil_iff.mpr hne)]
    exact .words hne hfills

/-- A line of data that is all digits comes to its items in any context, and leaves it as it is. -/
theorem Context.expandText_digits (ctx : Context) {n : Nat} {line : List Char}
    (hscan : Token.scan n line = .ok (mark :: tokens)) (hmark : mark.val = "%".toList)
    (hdigits : ∀ tk ∈ tokens, isDigits tk = true) (h : DataLine tokens items) :
    ctx.expandText n line = (.ok [⟨mark.loc, .data items⟩], ctx) := by
  have hpart : ∀ tk ∈ tokens, Inst.isPart tk.val = true := fun tk htk => by
    have hword := Token.isWord_of_scan hscan tk (List.mem_cons_of_mem mark htk)
    have hall := List.all_eq_true.mp (hdigits tk htk)
    rw [Inst.isPart, List.all_eq_true.mpr fun c hc => Inst.isTextChar_of_isDigit (hall c hc)]
    simpa using hword.1
  have halias : ∀ tk ∈ mark :: tokens, Alias.isName tk.val = false :=
    List.forall_mem_cons.mpr
      ⟨by rw [hmark]; rfl, fun tk htk => Inst.isName_of_isPart (hpart tk htk)⟩
  have harrow : ∀ tk ∈ mark :: tokens, tk.val ≠ Call.arrow :=
    List.forall_mem_cons.mpr
      ⟨by rw [hmark]; decide, fun tk htk => Inst.ne_arrow_of_isPart (hpart tk htk)⟩
  have hread : readLine ctx.scopes (mark :: tokens) = .ok (some (.data items), ctx.scopes) := by
    rw [readLine, hmark, if_neg (by decide), if_neg (by decide), if_pos rfl,
      readData_eq_ok_iff.mpr h]
    rfl
  rw [expandText, hscan]
  dsimp only
  rw [ctx.expand_of_plain halias harrow, statement, hread]
  rfl

theorem DataItem.encodeAll_words (labels : LabelMap) (address : Nat) (ws : List Word) :
    DataItem.encodeAll labels address [.words ws] = .ok ws :=
  encodeAll_cons_eq_ok_iff.mpr ⟨ws, rfl, [], rfl, List.append_nil ws⟩

/-- **Digits on a line of data are assembled to their words.** -/
theorem assemble?_digits {source line : List Char} (hlines : Text.lines source = [line])
    (hscan : Token.scan 1 line = .ok (mark :: tokens)) (hmark : mark.val = "%".toList)
    (h : (digitsOf tokens).map Char.toLower = ws.flatMap Numeral.word)
    (hroom : ws.length ≤ addressSpace) : assemble? source = .ok ⟨ws, ∅, 0⟩ := by
  obtain ⟨hdigits, hline⟩ := dataLine_of_words h
  have hgroups : Context.expandLines {} 1 (Text.lines source) =
      .ok [[⟨mark.loc, .data (if ws = [] then [] else [.words ws])⟩]] := by
    rw [hlines, Context.expandLines, Context.expandText_digits {} hscan hmark hdigits hline]
    rfl
  refine assemble?_eq_ok_iff.mpr ⟨_, hgroups, ?_, rfl⟩
  have hitems : DataItem.encodeAll ∅ 0 (if ws = [] then [] else [.words ws]) = .ok ws := by
    split
    · next hnil => exact hnil ▸ rfl
    · exact DataItem.encodeAll_words ∅ 0 ws
  have hwords : Statement.encodeFrom ∅ 0
      [.data (if ws = [] then [] else [.words ws])] = .ok ws :=
    Statement.encodeFrom_cons_eq_ok_iff.mpr ⟨ws, hitems, [], rfl, List.append_nil ws⟩
  refine ⟨?_, List.nodup_nil, rfl, hwords⟩
  have hsizes := Statement.length_encodeFrom hwords
  exact hsizes ▸ hroom

/-- **Lines of data.** The tokens behind the mark are read exactly if every run of tokens made of
digits, as far as it goes, comes to whole words, and every other token spells an item. What is read
is what the line stands for: the words of each run, however it is cut into tokens, and the items
between the runs. Wherever all labels that are referred to have addresses, as many words are emitted
as there was room kept for. And if the digits of the tokens are those of a list of words, then this
list is what the line is assembled to. -/
theorem readData_decodes (mark : Token) (tokens : List Token) :
    ((∃ items, readData mark tokens = .ok items) ↔
      (∀ run ∈ tokens.splitOnP (!isDigits ·), 4 ∣ (digitsOf run).length) ∧
        ∀ tk ∈ tokens, isDigits tk = false → ∃ item, DataItem.Spells tk.val item) ∧
    (∀ items, readData mark tokens = .ok items ↔ DataLine tokens items) ∧
    (∀ items, readData mark tokens = .ok items → ∀ (labels : LabelMap) (address : Nat),
      (∀ r, DataItem.ref r ∈ items → r.label ∈ labels) →
        ∃ ws, emitItems labels address [] [] items = (ws, []) ∧
          ws.length = (Statement.data items).size) ∧
    ∀ ws : List Word, (digitsOf tokens).map Char.toLower = ws.flatMap Numeral.word →
      readData mark tokens = .ok (if ws = [] then [] else [.words ws]) ∧
      ∀ source line, Text.lines source = [line] → Token.scan 1 line = .ok (mark :: tokens) →
        mark.val = "%".toList → ws.length ≤ addressSpace → assemble? source = .ok ⟨ws, ∅, 0⟩ := by
  refine ⟨?_, fun items => readData_eq_ok_iff,
    fun items _ labels address => exists_emitItems address,
    fun ws h => ⟨readData_eq_ok_iff.mpr (dataLine_of_words h).2, ?_⟩⟩
  · simp only [readData_eq_ok_iff]
    exact exists_dataLine_iff tokens
  · intro source line hlines hscan hmark
    exact assemble?_digits hlines hscan hmark h

/-- Two words whose eight digits are cut into three tokens, with a comment among them. -/
theorem readData_decodes_three :
    assemble? "% 0A0 1b / and then / Ef0".toList = .ok ⟨[0x0A01, 0xBEF0], ∅, 0⟩ :=
  ((readData_decodes ⟨⟨1, 1⟩, "%".toList⟩ [⟨⟨1, 3⟩, "0A0".toList⟩, ⟨⟨1, 7⟩, "1b".toList⟩,
    ⟨⟨1, 23⟩, "Ef0".toList⟩]).2.2.2 [0x0A01, 0xBEF0] (by decide)).2 _ _ rfl (by decide) rfl
      (by decide)

end Assembly

end WordMachine
