import Mathlib.Data.List.Induction
import WordMachine.Proofs.DirectAliases
import WordMachine.Proofs.Lines

/-!
# The two forms of a name

A name has a form for values, `$x`, and one for registers, `&x`. If the first stands for memory that
is reached through a register and the second for a register, one expects them to be the same
register (`AliasTable.Agree`). A declaration of one name writes both forms, and so does an
assignment to memory; what was there before does not matter then.

Two things write one form and leave the other as it was. A declaration of several names writes them
as they are spelled, and an assignment to something other than memory writes the name in front of
it. They part the forms if what they leave behind is about another register, and it stays that way
until one of the forms is written again. Nothing else parts them, tracked operations and calls
included, and that is all there is to say about any sequence of lines.

## Main definitions

* `AliasTable.Agree`: no register stands against the one that memory is reached through
* `AliasTable.Act`: what can be done to a table
* `AliasTable.Act.Parts`: an act leaves a form behind that is about another register

## Main results

* `AliasTable.not_agree_act_iff`: what one act does to a name
* `AliasTable.not_agree_foldl_iff`: what any acts do to it
* `Context.actsTo_behind`: all that lines do to a table are acts
* `forms_agree_iff`: the forms of a name behind any lines
-/

namespace WordMachine

namespace Assembly

/-! ### What forms stand for -/

namespace Operand

/-- The register that an operand reaches memory through. -/
def pointer? : Operand → Option Reg
  | mem r => some r
  | _ => none

/-- The register that an operand is, as a place to write to. -/
def register? : Operand → Option Destination
  | pc => some .pc
  | reg r => some (.reg r)
  | control => some .control
  | _ => none

/-- What is written behind a dot is the kind of an operand. -/
theorem ofToken?_append {kind : List Char} (h : '.' ∉ kind) (value : List Char) :
    ofToken? (value ++ '.' :: kind) = read? value (kind.map Char.toLower) := by
  rw [ofToken?, splitKind?_append h]

/-- A number that names a register in a memory operand names it on its own. -/
theorem ofNumber?_reg_of_pointer? {n : Nat} {r : Reg}
    (h : (ofNumber? n "mem".toList).bind pointer? = some r) :
    ofNumber? n "reg".toList = some (reg r) := by
  rcases n with _ | _ | _ | _ | n <;> cases h <;> rfl

theorem read?_reg_of_pointer? {value : List Char} {r : Reg}
    (h : (read? value "mem".toList).bind pointer? = some r) :
    read? value "reg".toList = some (reg r) := by
  rw [read?] at h ⊢
  cases hvalue : Numeral.read? value with
  | none =>
    rw [hvalue] at h
    cases h
  | some i =>
    rw [hvalue] at h
    dsimp only at h ⊢
    split at h
    · next hpos =>
      rw [if_pos hpos]
      exact ofNumber?_reg_of_pointer? h
    · cases h

/-- Nothing but a register or a memory operand is of the two kinds. -/
theorem eq_val_of_read? {value kind : List Char} {o : Operand} (h : read? value kind = some o)
    (hmem : kind ≠ "mem".toList) (hreg : kind ≠ "reg".toList) : o = val := by
  rw [read?] at h
  split at h
  · split at h
    · rw [ofNumber?.eq_def, if_neg hreg, if_neg hmem] at h
      split at h
      · split at h
        · exact (Option.some.inj h).symm
        · cases h
      · cases h
    · cases h
  · cases h

/-- A text of another kind stands neither for memory nor for a register. -/
theorem bind_eq_none_of_place? {t : List Char} (h : Alias.place? t = none) :
    (ofToken? t).bind pointer? = none ∧ (ofToken? t).bind register? = none := by
  rw [Alias.place?] at h
  rw [ofToken?]
  rcases hsplit : splitKind? t with _ | ⟨value, kind⟩ <;> rw [hsplit] at h
  · exact ⟨rfl, rfl⟩
  · dsimp only at h ⊢
    split at h
    · cases h
    · next hkind =>
      rw [not_or] at hkind
      rcases hread : read? value kind with _ | o
      · exact ⟨rfl, rfl⟩
      · rw [eq_val_of_read? hread hkind.1 hkind.2]
        exact ⟨rfl, rfl⟩

/-- A destination that is not memory is read as a register. -/
theorem bind_text {dst : Destination} (h : dst.isMem = false) :
    (ofToken? dst.text).bind pointer? = none ∧ (ofToken? dst.text).bind register? = some dst := by
  rcases dst with _ | r | _ | (_ | _ | _)
  · decide
  · cases h
  all_goals decide

end Operand

namespace Alias

/-- The register that an alias reaches memory through. -/
def pointer? : Alias → Option Reg
  | direct text => (Operand.ofToken? text).bind Operand.pointer?
  | tracked r _ => some r

/-- The register that an alias stands for. -/
def register? : Alias → Option Destination
  | direct text => (Operand.ofToken? text).bind Operand.register?
  | tracked _ _ => none

/-- The two operands that a declaration makes of one are about the same register. -/
theorem register?_of_pointer? {value : List Char} {r : Reg}
    (h : (direct (value ++ ".mem".toList)).pointer? = some r) :
    (direct (value ++ ".reg".toList)).register? = some (.reg r) := by
  have hmem : Operand.ofToken? (value ++ ".mem".toList) = Operand.read? value "mem".toList :=
    @Operand.ofToken?_append "mem".toList (by decide) value
  have hreg : Operand.ofToken? (value ++ ".reg".toList) = Operand.read? value "reg".toList :=
    @Operand.ofToken?_append "reg".toList (by decide) value
  rw [pointer?, hmem] at h
  rw [register?, hreg, Operand.read?_reg_of_pointer? h]
  rfl

theorem register?_regText (r : Reg) : (direct (regText r)).register? = some (.reg r) := by
  cases r <;> decide

@[simp] theorem pointer?_shift (a : Alias) (r : Reg) (delta : Int) :
    (a.shift r delta).pointer? = a.pointer? := by
  cases a with
  | direct text => rfl
  | tracked s offset =>
    rw [shift]
    split <;> rfl

@[simp] theorem register?_shift (a : Alias) (r : Reg) (delta : Int) :
    (a.shift r delta).register? = a.register? := by
  cases a with
  | direct text => rfl
  | tracked s offset =>
    rw [shift]
    split <;> rfl

end Alias

namespace AliasTable

variable {t : AliasTable} {x : List Char}

/-- The register through which `$x` stands for memory. -/
def pointer? (t : AliasTable) (x : List Char) : Option Reg :=
  (t.get? ('$' :: x)).bind Alias.pointer?

/-- The register that `&x` stands for. -/
def register? (t : AliasTable) (x : List Char) : Option Destination :=
  (t.get? ('&' :: x)).bind Alias.register?

/-- If `$x` stands for memory and `&x` for a register, memory is reached through that register. -/
def Agree (t : AliasTable) (x : List Char) : Prop :=
  ∀ r dst, t.pointer? x = some r → t.register? x = some dst → dst = .reg r

/-- What can be done to a table. -/
inductive Act where
  /-- One name is declared for an operand. -/
  | define (name operand : List Char)
  /-- Names are declared for the words that a register points at. -/
  | index (r : Reg) (names : List (List Char))
  /-- A name is given to the destination of an operation. -/
  | bind (name : List Char) (dst : Destination) (offset : Int)
  /-- Aliases follow an operation. -/
  | track (op : Operation)
  /-- Aliases follow what a callee does to a pointer. -/
  | shift (r : Reg) (delta : Int)

/-- The table behind an act. -/
def act (t : AliasTable) : Act → AliasTable
  | .define name operand => t.define name operand
  | .index r names => t.defineIndexed r 0 names
  | .bind name dst offset => t.bind name dst offset
  | .track op => t.track op
  | .shift r delta => t.shift r delta

namespace Act

/-- The names that are written. -/
def written : Act → List (List Char)
  | define name operand =>
    if (Alias.place? operand).isSome then [valueName name, refName name] else [name]
  | index _ names => names
  | bind name dst _ => if dst.isMem then [valueName name, refName name] else [name]
  | track _ | shift _ _ => []

/-- One of the forms of a name is written. -/
def Touches (a : Act) (x : List Char) : Prop := '$' :: x ∈ a.written ∨ '&' :: x ∈ a.written

/-- Only one form is written, and the other one is about another register: among names of words in
memory there is that for values and not that for registers, or an operation to a register is given
the name for registers. -/
inductive Parts (t : AliasTable) (x : List Char) : Act → Prop
  | index {r : Reg} {names : List (List Char)} {dst : Destination} (hvalue : '$' :: x ∈ names)
    (href : '&' :: x ∉ names) (hleft : t.register? x = some dst) (hne : dst ≠ .reg r) :
    Parts t x (index r names)
  | bind {r : Reg} {dst : Destination} {offset : Int} (hdst : dst.isMem = false)
    (hleft : t.pointer? x = some r) (hne : dst ≠ .reg r) : Parts t x (bind ('&' :: x) dst offset)

end Act

/-! ### What one act does -/

theorem not_agree_iff : ¬ t.Agree x ↔
    ∃ r dst, t.pointer? x = some r ∧ t.register? x = some dst ∧ dst ≠ .reg r := by
  simp only [Agree, not_forall, exists_prop]

/-- Forms agree if one of them is about no register. -/
theorem agree_of_pointer? (h : t.pointer? x = none) : t.Agree x := by
  intro r dst hpointer
  rw [h] at hpointer
  cases hpointer

theorem agree_of_register? (h : t.register? x = none) : t.Agree x := by
  intro r dst _ hregister
  rw [h] at hregister
  cases hregister

variable {name : List Char}

theorem pointer?_insert (t : AliasTable) (name x : List Char) (a : Alias) :
    (t.insert name a).pointer? x = if name = '$' :: x then a.pointer? else t.pointer? x := by
  rw [pointer?, get?_insert]
  split <;> rfl

theorem register?_insert (t : AliasTable) (name x : List Char) (a : Alias) :
    (t.insert name a).register? x = if name = '&' :: x then a.register? else t.register? x := by
  rw [register?, get?_insert]
  split <;> rfl

/-- An insertion is not about other names. -/
theorem agree_insert_of_ne (a : Alias) (hvalue : name ≠ '$' :: x) (href : name ≠ '&' :: x) :
    (t.insert name a).Agree x ↔ t.Agree x := by
  rw [Agree, Agree, pointer?_insert, if_neg hvalue, register?_insert, if_neg href]

/-- A form for values that stands for no memory agrees with anything. -/
theorem agree_insert_value {a : Alias} (h : a.pointer? = none) :
    (t.insert ('$' :: x) a).Agree x := by
  refine agree_of_pointer? ?_
  rw [pointer?_insert, if_pos rfl, h]

/-- So does a form for registers that stands for none. -/
theorem agree_insert_ref {a : Alias} (h : a.register? = none) :
    (t.insert ('&' :: x) a).Agree x := by
  refine agree_of_register? ?_
  rw [register?_insert, if_pos rfl, h]

/-- Where both forms are written, they agree if what is written does. -/
theorem agree_insert_forms {a b : Alias}
    (hab : ∀ r dst, a.pointer? = some r → b.register? = some dst → dst = .reg r) :
    ((t.insert (valueName name) a).insert (refName name) b).Agree x ↔
      name.tail = x ∨ t.Agree x := by
  rw [Agree, pointer?_insert, pointer?_insert, register?_insert, register?_insert, valueName,
    refName]
  by_cases hx : name.tail = x
  · rw [hx, if_pos rfl, if_neg (by simp), if_pos rfl]
    exact ⟨fun _ => .inl rfl, fun _ => hab⟩
  · rw [if_neg (by simp), if_neg (by simpa using hx), if_neg (by simpa using hx), if_neg (by simp)]
    exact ⟨.inr, fun h => h.resolve_left hx⟩

theorem define_eq (t : AliasTable) (name operand : List Char) : t.define name operand =
    match Alias.place? operand with
    | some value =>
      (t.insert (valueName name) (.direct (value ++ ".mem".toList))).insert (refName name)
        (.direct (value ++ ".reg".toList))
    | none => t.insert name (.direct operand) := by
  rw [define, Alias.place?]
  rcases splitKind? operand with _ | ⟨value, kind⟩
  · rfl
  · dsimp only
    split <;> rfl

theorem mem_forms_iff : ('$' :: x ∈ [valueName name, refName name] ∨
    '&' :: x ∈ [valueName name, refName name]) ↔ name.tail = x := by
  simp [valueName, refName, eq_comm]

/-- A declaration of one name leaves no form behind, or else it is about no register. -/
theorem agree_define (t : AliasTable) (name operand x : List Char) :
    (t.define name operand).Agree x ↔ (Act.define name operand).Touches x ∨ t.Agree x := by
  rw [define_eq, Act.Touches, Act.written]
  rcases hplace : Alias.place? operand with _ | value
  · obtain ⟨hpointer, hregister⟩ := Operand.bind_eq_none_of_place? hplace
    simp only [Option.isSome_none, Bool.false_eq_true, if_false, List.mem_singleton]
    by_cases hvalue : name = '$' :: x
    · subst hvalue
      exact iff_of_true (agree_insert_value hpointer) (.inl (.inl rfl))
    by_cases href : name = '&' :: x
    · subst href
      exact iff_of_true (agree_insert_ref hregister) (.inl (.inr rfl))
    · rw [agree_insert_of_ne _ hvalue href, or_iff_right]
      exact fun h => h.elim (fun h => hvalue h.symm) fun h => href h.symm
  · rw [Option.isSome_some, if_pos rfl, mem_forms_iff]
    refine agree_insert_forms fun r dst hpointer hregister => ?_
    exact Option.some.inj (hregister.symm.trans (Alias.register?_of_pointer? hpointer))

theorem pointer?_defineIndexed (t : AliasTable) (r : Reg) (offset : Int) (names : List (List Char))
    (x : List Char) : (t.defineIndexed r offset names).pointer? x =
      if '$' :: x ∈ names then some r else t.pointer? x := by
  induction names generalizing t offset with
  | nil => rfl
  | cons name rest ih =>
    rw [defineIndexed, ih, pointer?_insert]
    by_cases hname : name = '$' :: x
    · simp [hname, Alias.pointer?]
    · simp [hname, Ne.symm hname]

theorem register?_defineIndexed (t : AliasTable) (r : Reg) (offset : Int)
    (names : List (List Char)) (x : List Char) : (t.defineIndexed r offset names).register? x =
      if '&' :: x ∈ names then none else t.register? x := by
  induction names generalizing t offset with
  | nil => rfl
  | cons name rest ih =>
    rw [defineIndexed, ih, register?_insert]
    by_cases hname : name = '&' :: x
    · simp [hname, Alias.register?]
    · simp [hname, Ne.symm hname]

theorem not_agree_index_iff (t : AliasTable) (r : Reg) (names : List (List Char)) (x : List Char) :
    ¬ (t.defineIndexed r 0 names).Agree x ↔
      Act.Parts t x (.index r names) ∨ ¬ (Act.index r names).Touches x ∧ ¬ t.Agree x := by
  have hparts : Act.Parts t x (.index r names) ↔ '$' :: x ∈ names ∧ '&' :: x ∉ names ∧
      ∃ dst, t.register? x = some dst ∧ dst ≠ .reg r := by
    constructor
    · rintro ⟨hvalue, href, hleft, hne⟩
      exact ⟨hvalue, href, _, hleft, hne⟩
    · rintro ⟨hvalue, href, dst, hleft, hne⟩
      exact .index hvalue href hleft hne
  rw [Act.Touches, Act.written, not_agree_iff, not_agree_iff, hparts, pointer?_defineIndexed,
    register?_defineIndexed]
  by_cases hvalue : '$' :: x ∈ names <;> by_cases href : '&' :: x ∈ names <;> simp [hvalue, href]

theorem not_agree_bind_iff (t : AliasTable) (name : List Char) (dst : Destination) (offset : Int)
    (x : List Char) : ¬ (t.bind name dst offset).Agree x ↔
      Act.Parts t x (.bind name dst offset) ∨
        ¬ (Act.bind name dst offset).Touches x ∧ ¬ t.Agree x := by
  rw [Act.Touches, Act.written]
  cases hdst : dst.isMem with
  | true =>
    obtain ⟨r, rfl⟩ : ∃ r, dst = .mem r := by
      cases dst with
      | mem r => exact ⟨r, rfl⟩
      | _ => cases hdst
    have hforms : (t.bind name (.mem r) offset).Agree x ↔ name.tail = x ∨ t.Agree x := by
      refine agree_insert_forms fun s dst' hpointer hregister => ?_
      rw [Alias.register?_regText] at hregister
      cases hpointer
      exact (Option.some.inj hregister).symm
    have hparts : ¬ Act.Parts t x (.bind name (.mem r) offset) := by
      intro h
      cases h with
      | bind hdst => cases hdst
    rw [hforms, if_pos rfl, mem_forms_iff, not_or, or_iff_right hparts]
  | false =>
    have hbind : t.bind name dst offset = t.insert name (.direct dst.text) := by
      cases dst with
      | mem r => cases hdst
      | _ => rfl
    obtain ⟨hpointer, hregister⟩ := Operand.bind_text hdst
    rw [hbind, if_neg Bool.false_ne_true]
    by_cases href : name = '&' :: x
    · subst href
      have hparts : Act.Parts t x (.bind ('&' :: x) dst offset) ↔
          ∃ r, t.pointer? x = some r ∧ dst ≠ .reg r := by
        constructor
        · rintro (_ | ⟨-, hleft, hne⟩)
          exact ⟨_, hleft, hne⟩
        · rintro ⟨r, hleft, hne⟩
          exact .bind hdst hleft hne
      rw [not_agree_iff, hparts, pointer?_insert, register?_insert, if_pos rfl]
      simp [Alias.register?, hregister]
    · have hparts : ¬ Act.Parts t x (.bind name dst offset) := by
        intro h
        cases h with
        | bind _ _ _ => exact href rfl
      rw [or_iff_right hparts]
      by_cases hvalue : name = '$' :: x
      · subst hvalue
        have hagree : (t.insert ('$' :: x) (.direct dst.text)).Agree x :=
          agree_insert_value hpointer
        simp [hagree]
      · simp [agree_insert_of_ne _ hvalue href, Ne.symm hvalue, Ne.symm href]

@[simp] theorem pointer?_shift (t : AliasTable) (r : Reg) (delta : Int) (x : List Char) :
    (t.shift r delta).pointer? x = t.pointer? x := by
  rw [pointer?, get?_shift, pointer?]
  cases t.get? ('$' :: x) with
  | none => rfl
  | some a => exact a.pointer?_shift r delta

@[simp] theorem register?_shift (t : AliasTable) (r : Reg) (delta : Int) (x : List Char) :
    (t.shift r delta).register? x = t.register? x := by
  rw [register?, get?_shift, register?]
  cases t.get? ('&' :: x) with
  | none => rfl
  | some a => exact a.register?_shift r delta

/-- Aliases that follow a pointer stay with it. -/
theorem agree_shift (r : Reg) (delta : Int) : (t.shift r delta).Agree x ↔ t.Agree x := by
  rw [Agree, Agree, pointer?_shift, register?_shift]

theorem agree_track (op : Operation) : (t.track op).Agree x ↔ t.Agree x := by
  rw [track]
  split
  · exact agree_shift _ _
  · exact agree_shift _ _
  · split
    · split
      · exact agree_shift _ _
      · rfl
    · rfl
  · rfl

/-- **What an act does to a name.** Behind it the forms disagree if it parts them, or if they did
before and it writes neither. -/
theorem not_agree_act_iff (t : AliasTable) (a : Act) (x : List Char) :
    ¬ (t.act a).Agree x ↔ Act.Parts t x a ∨ ¬ a.Touches x ∧ ¬ t.Agree x := by
  cases a with
  | define name operand =>
    have hparts : ¬ Act.Parts t x (.define name operand) := by
      intro h
      cases h
    rw [act, agree_define, not_or, or_iff_right hparts]
  | index r names => exact t.not_agree_index_iff r names x
  | bind name dst offset => exact t.not_agree_bind_iff name dst offset x
  | track op =>
    have hparts : ¬ Act.Parts t x (.track op) := by
      intro h
      cases h
    rw [act, agree_track, or_iff_right hparts]
    simp [Act.Touches, Act.written]
  | shift r delta =>
    have hparts : ¬ Act.Parts t x (.shift r delta) := by
      intro h
      cases h
    rw [act, agree_shift, or_iff_right hparts]
    simp [Act.Touches, Act.written]

/-! ### What acts do -/

/-- **What acts do to a name.** Behind any acts the forms disagree exactly if one of the acts parted
them and none of those behind it wrote either of them. -/
theorem not_agree_foldl_iff (acts : List Act) (x : List Char) :
    ¬ (acts.foldl act {}).Agree x ↔ ∃ front a back, acts = front ++ a :: back ∧
      Act.Parts (front.foldl act {}) x a ∧ ∀ b ∈ back, ¬ b.Touches x := by
  induction acts using List.reverseRecOn with
  | nil =>
    have hnone : ({} : AliasTable).Agree x := agree_of_pointer? rfl
    simp [hnone]
  | append_singleton acts last ih =>
    rw [List.foldl_append, List.foldl_cons, List.foldl_nil, not_agree_act_iff, ih]
    constructor
    · rintro (hparts | ⟨hlast, front, a, back, rfl, hparts, hback⟩)
      · exact ⟨acts, last, [], rfl, hparts, by simp⟩
      · refine ⟨front, a, back ++ [last], by simp, hparts, ?_⟩
        rw [List.forall_mem_append, List.forall_mem_singleton]
        exact ⟨hback, hlast⟩
    · rintro ⟨front, a, back, hsplit, hparts, hback⟩
      rcases List.eq_nil_or_concat back with rfl | ⟨more, b, rfl⟩
      · obtain ⟨rfl, hlast⟩ := List.append_inj' hsplit rfl
        obtain rfl := (List.cons.inj hlast).1
        exact .inl hparts
      · rw [List.concat_eq_append, ← List.cons_append, ← List.append_assoc] at hsplit
        obtain ⟨rfl, hlast⟩ := List.append_inj' hsplit rfl
        obtain rfl := (List.cons.inj hlast).1
        rw [List.concat_eq_append, List.forall_mem_append, List.forall_mem_singleton] at hback
        exact .inr ⟨hback.2, front, a, more, rfl, hparts, hback.1⟩

/-- Acts lead from one table to another. -/
def ActsTo (t t' : AliasTable) : Prop := ∃ acts : List Act, t' = acts.foldl act t

theorem actsTo_act (t : AliasTable) (a : Act) : t.ActsTo (t.act a) := ⟨[a], rfl⟩

/-- To follow a pointer is an act. -/
theorem isFollowed_actsTo : IsFollowed ActsTo where
  refl := fun t => ⟨[], rfl⟩
  trans := by
    rintro t _ _ ⟨acts, rfl⟩ ⟨more, rfl⟩
    exact ⟨acts ++ more, by rw [List.foldl_append]⟩
  shift := fun t r delta => t.actsTo_act (.shift r delta)

end AliasTable

/-! ### What lines do -/

namespace Context

open AliasTable (ActsTo isFollowed_actsTo)

variable {ctx : Context}

theorem actsTo_declare {first : Token} {names rhs : List Token} {aliases : AliasTable}
    (h : ctx.declare first names rhs = .ok aliases) : ctx.aliases.ActsTo aliases := by
  obtain ⟨name, -, -, rfl⟩ | ⟨-, r, rfl⟩ := declare_cases h
  · exact ctx.aliases.actsTo_act (.define name _)
  · exact ctx.aliases.actsTo_act (.index r _)

/-- All that a line does to a table are acts, refused or not. -/
theorem actsTo_expand (ctx : Context) (tokens : List Token) :
    ctx.aliases.ActsTo (ctx.expand tokens).2.aliases := by
  obtain ⟨lhs, arrow, rhs, -, hexpand⟩ | ⟨first, rest, names, mark, rhs, -, -, -, hexpand⟩
    | ⟨first, mark, rhs, -, -, -, -, hexpand⟩ | hexpand := ctx.expand_cases tokens <;> rw [hexpand]
  · exact isFollowed_actsTo.call ctx lhs arrow rhs
  · rcases hdeclare : ctx.declare first names rhs with e | aliases
    · exact isFollowed_actsTo.refl _
    · exact actsTo_declare hdeclare
  · exact isFollowed_actsTo.assign fun _ _ t dst offset => t.actsTo_act (.bind first.val dst offset)
  · exact isFollowed_actsTo.plain ctx tokens

theorem actsTo_expandText (ctx : Context) (line : Nat) (text : List Char) :
    ctx.aliases.ActsTo (ctx.expandText line text).2.aliases := by
  rw [expandText]
  split
  · exact isFollowed_actsTo.refl _
  · exact ctx.actsTo_expand _

theorem actsTo_behind (ctx : Context) (line : Nat) (texts : List (List Char)) :
    ctx.aliases.ActsTo (ctx.behind line texts).aliases := by
  induction texts generalizing ctx line with
  | nil => exact isFollowed_actsTo.refl _
  | cons text rest ih => exact isFollowed_actsTo.trans (ctx.actsTo_expandText line text) (ih _ _)

end Context

open AliasTable (Act)

/-- **When the forms of a name agree.** Let anything be done to a table, from an empty one on. Then
`$x` stands for memory through one register and `&x` for another exactly if an act has parted them,
by writing one of the two in the presence of the other, and none has written either of them since.
Behind any lines of a source, the table is one that such acts lead to. -/
theorem forms_agree_iff (x : List Char) :
    (∀ acts : List Act, (acts.foldl AliasTable.act {}).Agree x ↔
      ∀ front a back, acts = front ++ a :: back →
        Act.Parts (front.foldl AliasTable.act {}) x a → ∃ b ∈ back, b.Touches x) ∧
    ∀ texts : List (List Char), ∃ acts : List Act,
      (Context.behind {} 1 texts).aliases = acts.foldl AliasTable.act {} := by
  refine ⟨fun acts => ?_, Context.actsTo_behind {} 1⟩
  have hiff := AliasTable.not_agree_foldl_iff acts x
  constructor
  · intro hagree front a back hsplit hparts
    by_contra hback
    refine hiff.mpr ⟨front, a, back, hsplit, hparts, ?_⟩ hagree
    exact fun b hb htouches => hback ⟨b, hb, htouches⟩
  · intro h
    by_contra hagree
    obtain ⟨front, a, back, hsplit, hparts, hback⟩ := hiff.mp hagree
    obtain ⟨b, hb, htouches⟩ := h front a back hsplit hparts
    exact hback b hb htouches

/-- What is known behind the declaration of a name and one of the same name with another. -/
def redeclared : AliasTable :=
  (Context.behind {} 1 ["$p as 3.mem".toList, "$p, $q as 1.mem".toList]).aliases

/-- **A register that was left behind.** The name is one for memory through the first register, and
its form for registers is still the third. -/
theorem exists_form_left_behind :
    redeclared.get? "$p".toList = some (.tracked .r1 0) ∧
    redeclared.get? "&p".toList = some (.direct "3.reg".toList) ∧
    ¬ redeclared.Agree "p".toList := by
  refine ⟨by decide, by decide, fun h => ?_⟩
  cases h .r1 (.reg .r3) (by decide) (by decide)

end Assembly

end WordMachine
