import Mathlib.Data.List.Nodup
import WordMachine.Assembly.Line

/-!
# Brackets

The marks of blocks are brackets. Which end belongs to which start is a matter of their order alone,
and `Balanced` says so without a word about the numbers in the labels: a list is balanced if its
starts and ends can be paired off, one pair inside another or behind it.

A list with open blocks is cut at its last open start, with balanced labels behind it. There is only
one such place (`innermost_unique`), so to speak of the innermost open block is to speak of one
block. `Opened` names all open blocks in this way, innermost first.

The assembler never looks back at the labels that it has given out. `Issued` is the relation between
those and what it keeps, and every fact about the numbers is an invariant of it: the numbers of
starts grow, and the number of an end is taken from the innermost open start.

## Main results

* `innermost_unique`: at most one start is the innermost open one
* `Issued.opened`: the blocks that are kept are the open ones
* `Issued.exists_start`: every end has the number of the start that it is paired with
* `Issued.nodup`: no label is given out twice
-/

namespace WordMachine

theorem Numeral.decimal_injective {m n : Nat} (h : decimal m = decimal n) : m = n := by
  have hvalues := congrArg (Nat.ofDigitChars 10 · 0) h
  simp only [decimal, Nat.ofDigitChars_ten_toDigits] at hvalues
  exact hvalues

namespace Assembly

/-! ### Marks and their written form -/

namespace Label

/-- Whether a label is the start of a block. -/
def isStart : Label → Bool
  | blockStart _ => true
  | _ => false

/-- Whether a label is the end of a block. -/
def isEnd : Label → Bool
  | blockEnd _ => true
  | _ => false

/-- Whether a label marks a block. -/
def isMark (l : Label) : Bool := l.isStart || l.isEnd

/-- Whether a label can be told from all others by its written form: the user's names must not begin
like that of a mark. -/
def isProper : Label → Bool
  | named t => !isReserved t
  | _ => true

end Label

/-- A proper name is not written like a mark. -/
theorem Label.text_ne_of_isMark {l : Label} (hl : l.isMark = true) {t : List Char}
    (ht : (named t).isProper = true) : l.text ≠ t := by
  rintro rfl
  cases l with
  | named s => cases hl
  | blockStart i => cases ht
  | blockEnd i => cases ht

/-- **Labels are told apart by their written form**, although a mark is written like a name. -/
theorem Label.text_injective {l m : Label} (hl : l.isProper = true) (hm : m.isProper = true)
    (h : l.text = m.text) : l = m := by
  cases l with
  | named s =>
    cases m with
    | named t => exact congrArg named h
    | _ => exact absurd h.symm (text_ne_of_isMark rfl hl)
  | blockStart i =>
    cases m with
    | named t => exact absurd h (text_ne_of_isMark rfl hm)
    | blockStart j => rw [Numeral.decimal_injective (List.cons.inj h).2]
    | blockEnd j => cases (List.cons.inj h).1
  | blockEnd i =>
    cases m with
    | named t => exact absurd h (text_ne_of_isMark rfl hm)
    | blockStart j => cases (List.cons.inj h).1
    | blockEnd j => rw [Numeral.decimal_injective (List.cons.inj h).2]

/-! ### Balanced labels -/

/-- Marks that are paired off like brackets, whatever their numbers are. -/
inductive Balanced : List Label → Prop
  | nil : Balanced []
  | block (i j : Nat) {inner rest : List Label} (hinner : Balanced inner) (hrest : Balanced rest) :
    Balanced (.blockStart i :: inner ++ .blockEnd j :: rest)

namespace Balanced

variable {ls ms front back : List Label}

theorem append (h : Balanced ls) (h' : Balanced ms) : Balanced (ls ++ ms) := by
  induction h with
  | nil => exact h'
  | block i j hinner _ _ ih =>
    rw [List.append_assoc, List.cons_append]
    exact .block i j hinner ih

/-- Balanced labels between a start and an end are balanced together with these. -/
theorem enclose (i j : Nat) (h : Balanced ls) :
    Balanced (.blockStart i :: ls ++ [.blockEnd j]) := .block i j h .nil

/-- There are as many starts as ends. -/
theorem countP_eq (h : Balanced ls) : ls.countP Label.isStart = ls.countP Label.isEnd := by
  induction h with
  | nil => rfl
  | block i j _ _ ihInner ihRest =>
    simp only [List.cons_append, List.countP_cons, List.countP_append, ihInner, ihRest,
      Label.isStart, Label.isEnd]
    simp only [if_true, Bool.false_eq_true, if_false]
    omega

/-- From any place on there are no more starts than ends. -/
theorem countP_le (h : Balanced ls) (hsplit : ls = front ++ back) :
    back.countP Label.isStart ≤ back.countP Label.isEnd := by
  induction h generalizing front back with
  | nil =>
    obtain ⟨-, rfl⟩ := List.append_eq_nil_iff.mp hsplit.symm
    exact Nat.le_refl 0
  | block i j hinner hrest ihInner ihRest =>
    rw [List.cons_append] at hsplit
    rcases List.cons_eq_append_iff.mp hsplit with ⟨rfl, rfl⟩ | ⟨front, rfl, hcut⟩
    · exact Nat.le_of_eq (Balanced.block i j hinner hrest).countP_eq
    · rcases List.append_eq_append_iff.mp hcut with ⟨more, rfl, hback⟩ | ⟨more, rfl, rfl⟩
      · -- The cut is behind the inner labels, before the end or behind it.
        rcases List.cons_eq_append_iff.mp hback with ⟨rfl, rfl⟩ | ⟨more, rfl, rfl⟩
        · have hle := ihRest (List.nil_append _).symm
          simp only [List.countP_cons, Label.isStart, Label.isEnd, if_true, Bool.false_eq_true,
            if_false]
          omega
        · exact ihRest rfl
      · have hinnerLe := ihInner rfl
        have hrestLe := ihRest (List.nil_append _).symm
        simp only [List.countP_append, List.countP_cons, Label.isStart, Label.isEnd, if_true,
          Bool.false_eq_true, if_false]
        omega

end Balanced

/-- Behind the innermost open start there are balanced labels, so there is none inside them. -/
theorem not_balanced_of_start {front inner : List Label} {i : Nat} (h : Balanced inner) :
    ¬ Balanced (front ++ .blockStart i :: inner) := by
  intro hall
  have hle := hall.countP_le rfl
  have heq := h.countP_eq
  simp only [List.countP_cons, Label.isStart, Label.isEnd, if_true, Bool.false_eq_true,
    if_false] at hle
  omega

/-- **At most one start is the innermost open one.** -/
theorem innermost_unique {outer outer' inner inner' : List Label} {i i' : Nat}
    (hinner : Balanced inner) (hinner' : Balanced inner')
    (h : outer ++ .blockStart i :: inner = outer' ++ .blockStart i' :: inner') :
    outer = outer' ∧ i = i' ∧ inner = inner' := by
  have hcase : ∀ {outer inner outer' inner' : List Label} {i i' : Nat} {more : List Label},
      Balanced inner → Balanced inner' → outer' = outer ++ more →
      .blockStart i :: inner = more ++ .blockStart i' :: inner' →
      outer = outer' ∧ i = i' ∧ inner = inner' := by
    intro outer inner outer' inner' i i' more hinner hinner' houter hcut
    rcases List.cons_eq_append_iff.mp hcut with ⟨rfl, hcut⟩ | ⟨more, rfl, rfl⟩
    · obtain ⟨hstart, rfl⟩ := List.cons.inj hcut
      exact ⟨(List.append_nil outer ▸ houter).symm, Label.blockStart.inj hstart, rfl⟩
    · exact absurd hinner (not_balanced_of_start hinner')
  rcases List.append_eq_append_iff.mp h with ⟨more, houter, hcut⟩ | ⟨more, houter, hcut⟩
  · exact hcase hinner hinner' houter hcut
  · obtain ⟨rfl, rfl, rfl⟩ := hcase hinner' hinner houter hcut
    exact ⟨rfl, rfl, rfl⟩

/-- The blocks of the given numbers are open behind labels, innermost first, and no others. -/
def Opened (ls : List Label) : List Nat → Prop
  | [] => Balanced ls
  | i :: is =>
    ∃ outer inner, ls = outer ++ .blockStart i :: inner ∧ Balanced inner ∧ Opened outer is

namespace Opened

variable {ls ms : List Label} {is : List Nat} {i j : Nat}

theorem append_balanced (h : Opened ls is) (hms : Balanced ms) : Opened (ls ++ ms) is := by
  cases is with
  | nil => exact h.append hms
  | cons i is =>
    obtain ⟨outer, inner, rfl, hinner, houter⟩ := h
    exact ⟨outer, inner ++ ms, by rw [List.append_assoc, List.cons_append], hinner.append hms,
      houter⟩

theorem start (h : Opened ls is) (i : Nat) : Opened (ls ++ [.blockStart i]) (i :: is) :=
  ⟨ls, [], rfl, .nil, h⟩

/-- An end closes the innermost open block. -/
theorem finish (h : Opened ls (i :: is)) (j : Nat) : Opened (ls ++ [.blockEnd j]) is := by
  obtain ⟨outer, inner, rfl, hinner, houter⟩ := h
  rw [List.append_assoc]
  exact houter.append_balanced (hinner.enclose i j)

/-- No block is open exactly behind balanced labels. -/
theorem eq_nil_iff (h : Opened ls is) : is = [] ↔ Balanced ls := by
  cases is with
  | nil => exact ⟨fun _ => h, fun _ => rfl⟩
  | cons i is =>
    obtain ⟨outer, inner, rfl, hinner, -⟩ := h
    refine ⟨fun hnil => absurd hnil (List.cons_ne_nil _ _), fun hall => ?_⟩
    exact absurd hall (not_balanced_of_start hinner)

end Opened

/-! ### Labels that were given out -/

/-- The labels that have been given out for blocks, in order, and the blocks that are kept. -/
inductive Issued : List Label → Scopes → Prop
  | init : Issued [] {}
  | start {ls : List Label} {s : Scopes} (h : Issued ls s) :
    Issued (ls ++ [(s.push blockName).1]) (s.push blockName).2
  | finish {ls : List Label} {s t : Scopes} {l : Label} (h : Issued ls s)
    (hpop : s.pop? blockName = .ok (l, t)) : Issued (ls ++ [l]) t

/-- What an end is given is the label of an end. -/
theorem Scopes.exists_blockEnd {s t : Scopes} {name : List Char} {l : Label}
    (h : s.pop? name = .ok (l, t)) : ∃ i, l = .blockEnd i := by
  rw [pop?] at h
  split at h
  · cases h
  · next scope _ => exact ⟨scope.id, (Prod.mk.inj (Except.ok.inj h)).1.symm⟩

/-- The numbers of the open blocks, innermost first. -/
def Scopes.ids (s : Scopes) : List Nat := s.pending.map (·.id)

namespace Issued

variable {ls : List Label} {s t : Scopes} {l : Label}

/-- Braces give all blocks the same name. -/
theorem name_eq (h : Issued ls s) : ∀ scope ∈ s.pending, scope.name = blockName := by
  induction h with
  | init => simp
  | start _ ih => exact List.forall_mem_cons.mpr ⟨rfl, ih⟩
  | finish _ hpop ih =>
    rw [Scopes.pop?] at hpop
    split at hpop
    · cases hpop
    · obtain ⟨-, rfl⟩ := Prod.mk.inj (Except.ok.inj hpop)
      exact fun scope hscope => ih scope (List.mem_of_mem_eraseP hscope)

/-- So it is always the innermost block that an end closes. -/
theorem pop?_eq_ok_iff (h : Issued ls s) :
    s.pop? blockName = .ok (l, t) ↔
      ∃ scope rest, s.pending = scope :: rest ∧ l = .blockEnd scope.id ∧
        t = { s with pending := rest } := by
  have hname := h.name_eq
  rw [Scopes.pop?]
  rcases hpending : s.pending with _ | ⟨scope, rest⟩
  · simp
  · rw [hpending] at hname
    have hfirst : (scope.name == blockName) = true :=
      beq_iff_eq.mpr (hname scope List.mem_cons_self)
    have hrest : (scope :: rest).eraseP (·.name == blockName) = rest :=
      List.eraseP_cons_of_pos hfirst
    rw [List.find?_cons, hfirst]
    dsimp only
    rw [hrest, Except.ok.injEq, Prod.mk.injEq]
    constructor
    · rintro ⟨rfl, rfl⟩
      exact ⟨scope, rest, rfl, rfl, rfl⟩
    · rintro ⟨_, _, ⟨⟩, rfl, rfl⟩
      exact ⟨rfl, rfl⟩

theorem exists_of_pop? (h : Issued ls s) (hpop : s.pop? blockName = .ok (l, t)) :
    ∃ i, l = .blockEnd i ∧ s.ids = i :: t.ids ∧ t.count = s.count := by
  obtain ⟨scope, rest, hpending, rfl, rfl⟩ := h.pop?_eq_ok_iff.mp hpop
  exact ⟨scope.id, rfl, by rw [Scopes.ids, hpending]; rfl, rfl⟩

/-- **The blocks that are kept are the open ones.** -/
theorem opened (h : Issued ls s) : Opened ls s.ids := by
  induction h with
  | init => exact .nil
  | start _ ih => exact ih.start _
  | finish h hpop ih =>
    obtain ⟨i, rfl, hids, -⟩ := h.exists_of_pop? hpop
    rw [hids] at ih
    exact ih.finish i

/-- A label among labels and one more is among these, or it is the one. -/
theorem cases_of_concat_eq {before behind : List Label} {m : Label}
    (h : ls ++ [l] = before ++ m :: behind) :
    (∃ more, ls = before ++ m :: more) ∨ before = ls ∧ m = l := by
  rcases List.eq_nil_or_concat behind with rfl | ⟨more, last, rfl⟩
  · obtain ⟨rfl, hlast⟩ := List.append_inj' h rfl
    exact Or.inr ⟨rfl, (List.cons.inj hlast).1.symm⟩
  · rw [List.concat_eq_append, ← List.cons_append, ← List.append_assoc] at h
    exact Or.inl ⟨more, (List.append_inj' h rfl).1⟩

/-- **Every end has the number of the start that it is paired with.** -/
theorem exists_start (h : Issued ls s) {before behind : List Label} {j : Nat}
    (hsplit : ls = before ++ .blockEnd j :: behind) :
    ∃ outer inner, before = outer ++ .blockStart j :: inner ∧ Balanced inner := by
  induction h generalizing behind with
  | init => simp at hsplit
  | start _ ih =>
    rcases cases_of_concat_eq hsplit with ⟨more, hmore⟩ | ⟨-, hlast⟩
    · exact ih hmore
    · cases hlast
  | finish h hpop ih =>
    rcases cases_of_concat_eq hsplit with ⟨more, hmore⟩ | ⟨rfl, hlast⟩
    · exact ih hmore
    · obtain ⟨i, rfl, hids, -⟩ := h.exists_of_pop? hpop
      obtain rfl := Label.blockEnd.inj hlast
      have hopened := h.opened
      rw [hids] at hopened
      obtain ⟨outer, inner, hsplit, hinner, -⟩ := hopened
      exact ⟨outer, inner, hsplit, hinner⟩

/-- What is known about the numbers in labels that were given out. None exceeds the number of
blocks, and no end has the number of a block that is still open. -/
structure Numbered (ls : List Label) (s : Scopes) : Prop where
  start_le : ∀ i, .blockStart i ∈ ls → i ≤ s.count
  end_le : ∀ i, .blockEnd i ∈ ls → i ≤ s.count
  end_closed : ∀ i, .blockEnd i ∈ ls → i ∉ s.ids
  open_le : ∀ i ∈ s.ids, i ≤ s.count
  nodup_ids : s.ids.Nodup
  nodup : ls.Nodup

/-- A new block has a number that there was not before. -/
theorem Numbered.start (h : Numbered ls s) (name : List Char) :
    Numbered (ls ++ [(s.push name).1]) (s.push name).2 := by
  have hids : (s.push name).2.ids = (s.count + 1) :: s.ids := rfl
  have hcount : (s.push name).2.count = s.count + 1 := rfl
  have hlabel : (s.push name).1 = .blockStart (s.count + 1) := rfl
  have hfresh : s.count + 1 ∉ s.ids := fun hmem => Nat.not_succ_le_self _ (h.open_le _ hmem)
  have hnew : .blockStart (s.count + 1) ∉ ls := fun hmem =>
    Nat.not_succ_le_self _ (h.start_le _ hmem)
  obtain ⟨hstart, hend, hclosed, hopen, hnodupIds, hnodup⟩ := h
  rw [hlabel]
  constructor
  all_goals grind

/-- A block that is closed is no longer open, so its number is not given to an end again. -/
theorem Numbered.finish (h : Numbered ls s) {i : Nat} (hids : s.ids.Perm (i :: t.ids))
    (hcount : t.count = s.count) : Numbered (ls ++ [.blockEnd i]) t := by
  have hi : i ∈ s.ids := hids.mem_iff.mpr List.mem_cons_self
  have hnew : .blockEnd i ∉ ls := fun hmem => h.end_closed i hmem hi
  have hmem : ∀ j, j ∈ s.ids ↔ j = i ∨ j ∈ t.ids := by
    intro j
    rw [hids.mem_iff, List.mem_cons]
  have hrest : (i :: t.ids).Nodup := hids.nodup_iff.mp h.nodup_ids
  obtain ⟨hstart, hend, hclosed, hopen, hnodupIds, hnodup⟩ := h
  constructor
  all_goals grind

theorem numbered (h : Issued ls s) : Numbered ls s := by
  induction h with
  | init =>
    exact ⟨by simp, by simp, by simp, by simp [Scopes.ids], by simp [Scopes.ids], .nil⟩
  | start _ ih => exact ih.start blockName
  | finish h hpop ih =>
    obtain ⟨i, rfl, hids, hcount⟩ := h.exists_of_pop? hpop
    exact ih.finish (.of_eq hids) hcount

/-- **No label is given out twice.** -/
theorem nodup (h : Issued ls s) : ls.Nodup := h.numbered.nodup

/-- A start and an end behind it have the same number exactly if they are paired. -/
theorem eq_iff_balanced (h : Issued ls s) {outer inner behind : List Label} {i j : Nat}
    (hsplit : ls = outer ++ .blockStart i :: inner ++ .blockEnd j :: behind) :
    i = j ↔ Balanced inner := by
  obtain ⟨outer', inner', hbefore, hinner'⟩ := h.exists_start hsplit
  constructor
  · rintro rfl
    -- The same start is not given out twice, so this one is the partner of the end.
    have hnodup := h.nodup
    rw [hsplit, List.append_assoc, List.cons_append, List.nodup_middle, List.nodup_cons] at hnodup
    have houter : .blockStart i ∉ outer := fun hmem => hnodup.1 (List.mem_append_left _ hmem)
    have hinner : .blockStart i ∉ inner := fun hmem =>
      hnodup.1 (List.mem_append_right _ (List.mem_append_left _ hmem))
    obtain ⟨-, -, rfl⟩ := (List.append_cons_inj_of_notMem houter hinner).mp hbefore
    exact hinner'
  · intro hinner
    exact (innermost_unique hinner hinner' hbefore).2.1

end Issued

end Assembly

end WordMachine
