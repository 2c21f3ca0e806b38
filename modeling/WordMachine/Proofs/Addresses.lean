import WordMachine.Proofs.Passes

/-!
# Where statements stand

The first pass counts words without writing any, and the second writes them without counting. This
file shows that the two agree: the words of every statement stand at the address that the first pass
gave it, and the labels point at the statements behind them.

`Statement.StandsAt` says what it is for a statement to stand at an index of a program. An operation
stands where its word was encoded, a literal is found word by word, and a reference has become the
number that it stands for, counted from the very word that holds it.

## Main results

* `Statement.encodeFrom_append_eq_ok_iff`: a row of statements is encoded part by part
* `Statement.getElem?_labelsFrom`: which labels there are, and where they point
* `assemble?_layout`: every statement of an assembled source stands at the sum of the sizes before
  it
-/

namespace WordMachine

namespace Assembly

/-! ### Rows in two parts -/

namespace DataItem

variable {labels : LabelMap} {address : Nat} {front back : List DataItem} {ws : List Word}

theorem encodeAll_append_eq_ok_iff :
    encodeAll labels address (front ++ back) = .ok ws ↔
      ∃ us, encodeAll labels address front = .ok us ∧
        ∃ vs, encodeAll labels (address + (Statement.data front).size) back = .ok vs ∧
          us ++ vs = ws := by
  induction front generalizing address ws with
  | nil => simp [encodeAll, Statement.size]
  | cons item front ih =>
    simp only [List.cons_append, encodeAll_cons_eq_ok_iff, ih, Statement.size_data_cons,
      Nat.add_assoc]
    constructor
    · rintro ⟨is, his, _, ⟨us, hus, vs, hvs, rfl⟩, rfl⟩
      exact ⟨is ++ us, ⟨is, his, us, hus, rfl⟩, vs, hvs, List.append_assoc ..⟩
    · rintro ⟨_, ⟨is, his, us, hus, rfl⟩, vs, hvs, rfl⟩
      exact ⟨is, his, us ++ vs, ⟨us, hus, vs, hvs, rfl⟩, (List.append_assoc ..).symm⟩

end DataItem

namespace Statement

variable {labels : LabelMap} {address : Nat} {ss before behind : List Statement} {ws : List Word}

theorem encodeFrom_append_eq_ok_iff :
    encodeFrom labels address (before ++ behind) = .ok ws ↔
      ∃ us, encodeFrom labels address before = .ok us ∧
        ∃ vs, encodeFrom labels (address + sizes before) behind = .ok vs ∧ us ++ vs = ws := by
  induction before generalizing address ws with
  | nil => simp [encodeFrom]
  | cons s before ih =>
    simp only [List.cons_append, encodeFrom_cons_eq_ok_iff, ih, sizes_cons, Nat.add_assoc]
    constructor
    · rintro ⟨is, his, _, ⟨us, hus, vs, hvs, rfl⟩, rfl⟩
      exact ⟨is ++ us, ⟨is, his, us, hus, rfl⟩, vs, hvs, List.append_assoc ..⟩
    · rintro ⟨_, ⟨is, his, us, hus, rfl⟩, vs, hvs, rfl⟩
      exact ⟨is, his, us ++ vs, ⟨us, hus, vs, hvs, rfl⟩, (List.append_assoc ..).symm⟩

/-- Statements come to as many words as they occupy. -/
theorem length_encodeFrom (h : encodeFrom labels address ss = .ok ws) :
    ws.length = sizes ss := by
  induction ss generalizing address ws with
  | nil =>
    cases h
    rfl
  | cons s ss ih =>
    obtain ⟨us, hus, vs, hvs, rfl⟩ := encodeFrom_cons_eq_ok_iff.mp h
    rw [List.length_append, length_encode hus, ih hvs, sizes_cons]

/-- A statement among others has its words where the sizes before it end. -/
theorem encode_of_encodeFrom {s : Statement}
    (h : encodeFrom labels address (before ++ s :: behind) = .ok ws) :
    ∃ us vs rest, ws = us ++ vs ++ rest ∧ us.length = sizes before ∧
      s.encode labels (address + sizes before) = .ok vs := by
  obtain ⟨us, hus, _, hrest, rfl⟩ := encodeFrom_append_eq_ok_iff.mp h
  obtain ⟨vs, hvs, rest, -, rfl⟩ := encodeFrom_cons_eq_ok_iff.mp hrest
  exact ⟨us, vs, rest, (List.append_assoc ..).symm, length_encodeFrom hus, hvs⟩

/-! ### Labels -/

/-- A definition among statements is the first of them, or one among the others. -/
theorem exists_split_cons_iff {s : Statement} {name : Label} {P : Nat → Prop} :
    (∃ before behind, s :: ss = before ++ label name :: behind ∧ P (sizes before)) ↔
      s = label name ∧ P 0 ∨
        ∃ before behind, ss = before ++ label name :: behind ∧ P (s.size + sizes before) := by
  constructor
  · rintro ⟨before, behind, hsplit, hP⟩
    rcases List.cons_eq_append_iff.mp hsplit with ⟨rfl, hhead⟩ | ⟨before, rfl, rfl⟩
    · obtain ⟨rfl, rfl⟩ := List.cons.inj hhead
      exact Or.inl ⟨rfl, hP⟩
    · exact Or.inr ⟨before, behind, rfl, sizes_cons s before ▸ hP⟩
  · rintro (⟨rfl, hP⟩ | ⟨before, behind, rfl, hP⟩)
    · exact ⟨[], ss, rfl, hP⟩
    · exact ⟨s :: before, behind, rfl, (sizes_cons s before).symm ▸ hP⟩

/-- There is an address for a label exactly if it is defined, however often that may be. -/
theorem getElem?_labelsFrom_eq_none_iff {name : Label} :
    (labelsFrom labels address ss)[name]? = none ↔ name ∉ names ss ∧ labels[name]? = none := by
  induction ss generalizing labels address with
  | nil => simp [labelsFrom]
  | cons s ss ih =>
    rcases s with other | items | op
    · rw [labelsFrom, ih, Std.TreeMap.getElem?_insert, names_label_cons, List.mem_cons]
      by_cases hname : name = other
      · simp [hname]
      · have hne : compare other name ≠ .eq :=
          fun heq => hname (Std.LawfulEqOrd.eq_of_compare heq).symm
        simp [hname, hne]
    · rw [labelsFrom, ih, names_data_cons]
      simp
    · rw [labelsFrom, ih, names_op_cons]
      simp

/-- Labels point to where they were defined, as long as none is defined twice. -/
theorem getElem?_labelsFrom (hnodup : (names ss).Nodup) {name : Label} {target : Word} :
    (labelsFrom labels address ss)[name]? = some target ↔
      (∃ before behind, ss = before ++ label name :: behind ∧
        target = UInt16.ofNat (address + sizes before)) ∨
      name ∉ names ss ∧ labels[name]? = some target := by
  induction ss generalizing labels address with
  | nil => simp [labelsFrom, names]
  | cons s ss ih =>
    rw [exists_split_cons_iff (P := fun n => target = UInt16.ofNat (address + n))]
    rcases s with other | items | op
    · rw [names_label_cons, List.nodup_cons] at hnodup
      obtain ⟨hother, hrest⟩ := hnodup
      rw [labelsFrom, ih hrest, names_label_cons, List.mem_cons, not_or]
      simp only [Std.TreeMap.getElem?_insert, Std.compare_eq_iff_eq]
      by_cases heq : other = name
      · subst heq
        simp [hother, size, eq_comm, or_comm]
      · simp [heq, Ne.symm heq, size]
    · rw [labelsFrom, ih hnodup]
      · simp [Nat.add_assoc]
      · simp
    · rw [labelsFrom, ih hnodup]
      · simp [Nat.add_assoc]
      · simp

end Statement

/-! ### Standing at an index -/

/-- The word at an index is the number that a reference there stands for: the address of its label,
or how far away that is from the index. -/
def LabelRef.StandsAt (r : LabelRef) (labels : LabelMap) (words : List Word) (j : Nat) : Prop :=
  ∃ target, labels[r.label]? = some target ∧
    words[j]? = some (match r.kind with
      | .absolute => target
      | .displacement => Word.ofInt (target.toNat - j))

/-- The words from an index on are those of an item. -/
def DataItem.StandsAt (item : DataItem) (labels : LabelMap) (words : List Word) (j : Nat) : Prop :=
  match item with
  | .words ws => ws <+: words.drop j
  | .ref r => r.StandsAt labels words j

/-- A program has a statement at an index. A label points there, the word of an operation stands
there, and items of data stand there one behind another. -/
def Statement.StandsAt (s : Statement) (labels : LabelMap) (words : List Word) (j : Nat) : Prop :=
  match s with
  | .label name => labels[name]? = some (UInt16.ofNat j)
  | .op o => ∃ w, words[j]? = some w ∧ o.encode labels (UInt16.ofNat j) = .ok w
  | .data items => ∀ front item back, items = front ++ item :: back →
      item.StandsAt labels words (j + (Statement.data front).size)

namespace LabelRef

variable {labels : LabelMap} {r : LabelRef}

/-- The number of a reference, by its kind. -/
theorem resolve_eq_ok_iff {address : Word} {i : Int} :
    r.resolve labels address = .ok i ↔
      ∃ target, labels[r.label]? = some target ∧
        i = match r.kind with
          | .absolute => (target.toNat : Int)
          | .displacement => target.toNat - address.toNat := by
  rw [resolve]
  rcases labels[r.label]? with _ | target
  · simp
  · cases r.kind <;> simp [eq_comm]

theorem standsAt_of_resolve {us rest : List Word} {i : Int}
    (h : r.resolve labels (UInt16.ofNat us.length) = .ok i) :
    r.StandsAt labels (us ++ Word.ofInt i :: rest) us.length := by
  obtain ⟨target, htarget, rfl⟩ := resolve_eq_ok_iff.mp h
  refine ⟨target, htarget, ?_⟩
  rw [List.getElem?_append_right (Nat.le_refl _), Nat.sub_self, List.getElem?_cons_zero,
    Option.some.injEq]
  cases r.kind with
  | absolute => exact Word.ofInt_toNat target
  | displacement =>
    simp only [Word.ofInt_eq_iff, UInt16.toNat_ofNat']
    omega

end LabelRef

namespace DataItem

variable {labels : LabelMap}

theorem standsAt_of_resolve {item : DataItem} {us vs rest : List Word}
    (h : item.resolve labels (UInt16.ofNat us.length) = .ok vs) :
    item.StandsAt labels (us ++ vs ++ rest) us.length := by
  cases item with
  | words ws =>
    cases h
    rw [StandsAt, List.append_assoc, List.drop_left]
    exact List.prefix_append vs rest
  | ref r =>
    obtain ⟨i, hi, rfl⟩ := map_eq_ok_iff.mp h
    rw [List.append_assoc]
    exact LabelRef.standsAt_of_resolve hi

end DataItem

namespace Statement

variable {labels : LabelMap}

/-- Data and operations stand where their words are. -/
theorem standsAt_of_encode {s : Statement} {us vs rest : List Word}
    (h : s.encode labels us.length = .ok vs)
    (hlabel : ∀ name, s = label name → labels[name]? = some (UInt16.ofNat us.length)) :
    s.StandsAt labels (us ++ vs ++ rest) us.length := by
  cases s with
  | label name => exact hlabel name rfl
  | op op =>
    obtain ⟨w, hw, rfl⟩ := encode_op_eq_ok_iff.mp h
    exact ⟨w, by simp, hw⟩
  | data items =>
    rintro front item back rfl
    obtain ⟨ws, hws, _, htail, rfl⟩ := DataItem.encodeAll_append_eq_ok_iff.mp h
    obtain ⟨is, his, more, -, rfl⟩ := DataItem.encodeAll_cons_eq_ok_iff.mp htail
    have hlength : us.length + (data front).size = (us ++ ws).length := by
      rw [List.length_append, DataItem.length_encodeAll hws]
    rw [hlength] at his ⊢
    have hshape : us ++ (ws ++ (is ++ more)) ++ rest = (us ++ ws) ++ is ++ (more ++ rest) := by
      simp only [List.append_assoc]
    rw [hshape]
    exact DataItem.standsAt_of_resolve his

end Statement

/-! ### Programs -/

namespace Program.Realizes

open Statement (sizes)

variable {p : Program} {ss before behind : List Statement}

theorem length_words (h : p.Realizes ss) : p.words.length = sizes ss :=
  Statement.length_encodeFrom h.encodeFrom_eq

/-- The labels of a program are those that its statements define, each where it is defined. -/
theorem getElem?_labels (h : p.Realizes ss) {name : Label} {target : Word} :
    p.labels[name]? = some target ↔
      ∃ before behind, ss = before ++ .label name :: behind ∧
        target = UInt16.ofNat (sizes before) := by
  rw [h.labels_eq, Statement.getElem?_labelsFrom h.nodup_names]
  simp

/-- A statement of a program has its words at the sum of the sizes before it. -/
theorem encode_of_split {s : Statement} (h : p.Realizes (before ++ s :: behind)) :
    ∃ us vs rest, p.words = us ++ vs ++ rest ∧ us.length = sizes before ∧
      s.encode p.labels (sizes before) = .ok vs := by
  obtain ⟨us, vs, rest, hwords, hlength, hs⟩ := Statement.encode_of_encodeFrom h.encodeFrom_eq
  rw [Nat.zero_add] at hs
  exact ⟨us, vs, rest, hwords, hlength, hs⟩

theorem standsAt {s : Statement} (h : p.Realizes (before ++ s :: behind)) :
    s.StandsAt p.labels p.words (sizes before) := by
  obtain ⟨us, vs, rest, hwords, hlength, hs⟩ := h.encode_of_split
  rw [hwords, ← hlength]
  refine Statement.standsAt_of_encode (hlength ▸ hs) ?_
  rintro name rfl
  exact h.getElem?_labels.mpr ⟨before, behind, rfl, hlength ▸ rfl⟩

end Program.Realizes

open Statement (sizes)

/-- **The two passes agree.** An assembled source has none of its lines refused. Its words are as
many as its statements occupy, each statement stands at the sum of the sizes before it, and the
labels are the ones that it defines. -/
theorem assemble?_layout {source : List Char} {p : Program} (h : assemble? source = .ok p) :
    ∃ groups, Context.expandLines {} 1 (Text.lines source) = .ok groups ∧
      p.words.length = sizes (Statement.ofLines groups) ∧
      sizes (Statement.ofLines groups) ≤ addressSpace ∧
      (∀ before s behind, Statement.ofLines groups = before ++ s :: behind →
        sizes before + s.size ≤ p.words.length ∧
        s.StandsAt p.labels p.words (sizes before)) ∧
      (∀ name target, p.labels[name]? = some target ↔
        ∃ before behind, Statement.ofLines groups = before ++ .label name :: behind ∧
          target = UInt16.ofNat (sizes before)) := by
  obtain ⟨groups, hgroups, hp, -⟩ := assemble?_eq_ok_iff.mp h
  refine ⟨groups, hgroups, hp.length_words, hp.sizes_le, ?_, fun name target => hp.getElem?_labels⟩
  intro before s behind hsplit
  refine ⟨?_, (hsplit ▸ hp).standsAt⟩
  rw [hp.length_words, hsplit, Statement.sizes_append, Statement.sizes_cons]
  omega

/-- A source that is assembled to given words. -/
theorem exists_program_of_words {source : List Char} {ws : List Word}
    (h : (assemble? source).toOption.map (·.words) = some ws) :
    ∃ p, assemble? source = .ok p ∧ p.words = ws := by
  obtain ⟨p, hp, hwords⟩ := Option.map_eq_some_iff.mp h
  exact ⟨p, toOption_eq_some_iff.mp hp, hwords⟩

/-- A label, and behind it an operation and data that refer to it. -/
theorem assemble?_layout_three :
    ∃ p groups,
      assemble? "again:\ncopy 4.val again.disp 0.reg\n% 00ff again.disp".toList = .ok p ∧
      p.words = [0x6200, 0x00FF, 0xFFFE] ∧
      Context.expandLines {} 1 (Text.lines
        "again:\ncopy 4.val again.disp 0.reg\n% 00ff again.disp".toList) = .ok groups ∧
      sizes (Statement.ofLines groups) = 3 := by
  obtain ⟨p, hp, hwords⟩ := @exists_program_of_words
    "again:\ncopy 4.val again.disp 0.reg\n% 00ff again.disp".toList [0x6200, 0x00FF, 0xFFFE]
    (by decide +kernel)
  obtain ⟨groups, hgroups, hlength, -⟩ := assemble?_layout hp
  refine ⟨p, groups, hp, hwords, hgroups, ?_⟩
  rw [← hlength, hwords]
  rfl

end Assembly

end WordMachine
