import WordMachine.Proofs.Rows
import WordMachine.Proofs.Substitution

/-!
# Direct aliases

A name that is declared for an operand stands for the words of that operand wherever it is used
later. The words are put together to a text when the name is declared, and the text is cut into
words again when the name is replaced. What comes out is what went in, with one exception. An
operand that reads like a register or a memory operand is given two names, one for the memory and
one for the register, and to find out whether it does, the text is cut at its last dot. So only the
last word of an operand is looked at, however many words there are before it, and if that word ends
like a register, the name for values has a memory operand in its place (`Alias.valueWords`).

A name keeps its words until it is declared again. Between its declaration and its use there may be
any lines, refused ones among them, that do not declare the name themselves (`Context.Leads`).

## Main results

* `Alias.valueWords_eq_iff`: the operands that a name stands for word by word
* `AliasTable.IsFollowed.statements`, `AliasTable.IsFollowed.call`: what aliases that only follow
  pointers keep
* `Context.keepsDirect_expand`: a line leaves direct aliases as they are, but for the names on it
* `Context.substitute_of_declared`: what becomes of a declared name on any later line
-/

namespace WordMachine

namespace Assembly

/-! ### The words of a declared operand -/

namespace Alias

/-- What stands before the kind of a text that reads like a register or a memory operand. -/
def place? (t : List Char) : Option (List Char) :=
  match splitKind? t with
  | some (value, kind) => if kind = "mem".toList ∨ kind = "reg".toList then some value else none
  | none => none

/-- What the name for values stands for that is declared for an operand. -/
def valueText (operand : List Char) : List Char :=
  match place? operand with
  | some value => value ++ ".mem".toList
  | none => operand

/-- The words of that, if the operand has some words. -/
def valueWords : List (List Char) → List (List Char)
  | [] => []
  | [t] => [valueText t]
  | t :: u :: ts => t :: valueWords (u :: ts)

theorem place?_eq_some_iff {t value : List Char} :
    place? t = some value ↔ ∃ kind, t = value ++ '.' :: kind ∧ '.' ∉ kind ∧
      (kind.map Char.toLower = "mem".toList ∨ kind.map Char.toLower = "reg".toList) := by
  rw [place?, splitKind?]
  constructor
  · intro h
    split at h
    · next v k hsplit =>
      split at h
      · next hkind =>
        cases h
        obtain ⟨⟨a, b⟩, hcut, hab⟩ := Option.map_eq_some_iff.mp hsplit
        obtain ⟨rfl, rfl⟩ := Prod.mk.inj hab
        obtain ⟨rfl, hb⟩ := Text.cutLast?_eq_some_iff.mp hcut
        exact ⟨b, rfl, hb, hkind⟩
      · cases h
    · cases h
  · rintro ⟨kind, rfl, hdot, hkind⟩
    rw [Text.cutLast?_eq_some_iff.mpr ⟨rfl, hdot⟩]
    exact if_pos hkind

/-- A kind has no space in it, so it is the last word that is looked at. -/
theorem place?_append_cons (u t : List Char) :
    place? (u ++ ' ' :: t) = (place? t).map (u ++ ' ' :: ·) := by
  have hspace : ∀ kind : List Char, (kind.map Char.toLower = "mem".toList ∨
      kind.map Char.toLower = "reg".toList) → ' ' ∉ kind := by
    intro kind hkind hmem
    have hlower : ' ' ∈ kind.map Char.toLower := List.mem_map.mpr ⟨' ', hmem, rfl⟩
    rcases hkind with hkind | hkind <;> rw [hkind] at hlower <;> revert hlower <;> decide
  apply Option.ext
  intro value
  rw [Option.map_eq_some_iff, place?_eq_some_iff]
  constructor
  · rintro ⟨kind, htext, hdot, hkind⟩
    rcases List.append_eq_append_iff.mp htext with ⟨a, rfl, ha⟩ | ⟨a, -, ha⟩
    · cases a with
      | nil => cases ha
      | cons c a =>
        obtain ⟨rfl, rfl⟩ := List.cons.inj ha
        exact ⟨a, place?_eq_some_iff.mpr ⟨kind, rfl, hdot, hkind⟩, rfl⟩
    · -- The cut would be before the space.
      have hmem : ' ' ∈ '.' :: kind := by simp [ha]
      rcases List.mem_cons.mp hmem with hdot | hmem
      · cases hdot
      · exact absurd hmem (hspace kind hkind)
  · rintro ⟨a, ha, rfl⟩
    obtain ⟨kind, rfl, hdot, hkind⟩ := place?_eq_some_iff.mp ha
    exact ⟨kind, by simp, hdot, hkind⟩

theorem valueText_append_cons (u t : List Char) :
    valueText (u ++ ' ' :: t) = u ++ ' ' :: valueText t := by
  rw [valueText, valueText, place?_append_cons]
  cases place? t with
  | none => rfl
  | some value => simp

theorem valueText_unwords {ts : List (List Char)} (h : ts ≠ []) :
    valueText (Text.unwords ts) = Text.unwords (valueWords ts) := by
  induction ts with
  | nil => exact absurd rfl h
  | cons t ts ih =>
    cases ts with
    | nil => simp [valueWords, Text.unwords]
    | cons u us =>
      have hrest := ih (List.cons_ne_nil u us)
      obtain ⟨v, vs, hwords⟩ : ∃ v vs, valueWords (u :: us) = v :: vs := by
        cases us <;> exact ⟨_, _, rfl⟩
      calc valueText (Text.unwords (t :: u :: us))
        _ = t ++ ' ' :: Text.unwords (valueWords (u :: us)) := by
          rw [Text.unwords_cons_cons, valueText_append_cons, hrest]
        _ = Text.unwords (t :: valueWords (u :: us)) := by
          rw [hwords, Text.unwords_cons_cons]

/-- What a word is replaced by is a word again. -/
theorem isWord_valueText {t : List Char} (h : Text.IsWord t) : Text.IsWord (valueText t) := by
  have hkind : ∀ c ∈ ".mem".toList, Text.isBlank c = false := by simp [Text.isBlank]
  rw [valueText]
  rcases hplace : place? t with _ | value
  · exact h
  · obtain ⟨kind, rfl, -, -⟩ := place?_eq_some_iff.mp hplace
    refine ⟨by simp, fun c hc => ?_⟩
    rcases List.mem_append.mp hc with hc | hc
    · exact h.2 c (List.mem_append_left _ hc)
    · exact hkind c hc

theorem isWord_of_mem_valueWords {ts : List (List Char)} (h : ∀ t ∈ ts, Text.IsWord t) :
    ∀ t ∈ valueWords ts, Text.IsWord t := by
  induction ts with
  | nil => exact h
  | cons t ts ih =>
    rw [List.forall_mem_cons] at h
    cases ts with
    | nil => simpa [valueWords] using isWord_valueText h.1
    | cons u us =>
      rw [valueWords, List.forall_mem_cons]
      exact ⟨h.1, ih h.2⟩

theorem valueText_eq_iff {t : List Char} :
    valueText t = t ↔ place? t = none ∨ ".mem".toList <:+ t := by
  rw [valueText]
  rcases hplace : place? t with _ | value
  · simp
  · obtain ⟨kind, rfl, hdot, -⟩ := place?_eq_some_iff.mp hplace
    simp only [reduceCtorEq, false_or]
    constructor
    · intro h
      exact ⟨value, h⟩
    · rintro ⟨v, hv⟩
      have hcut : Text.cutLast? '.' (v ++ ".mem".toList) = some (v, "mem".toList) :=
        Text.cutLast?_eq_some_iff.mpr ⟨rfl, by decide⟩
      rw [hv, Text.cutLast?_eq_some_iff.mpr ⟨rfl, hdot⟩] at hcut
      obtain ⟨rfl, rfl⟩ := Prod.mk.inj (Option.some.inj hcut)
      rfl

/-- **A name stands for its operand word by word**, unless the last word of the operand reads like a
register, or like a memory operand that is spelled in another way. -/
theorem valueWords_eq_iff {ts : List (List Char)} :
    valueWords ts = ts ↔
      ∀ t, ts.getLast? = some t → place? t = none ∨ ".mem".toList <:+ t := by
  induction ts with
  | nil => simp [valueWords]
  | cons t ts ih =>
    cases ts with
    | nil => simp [valueWords, valueText_eq_iff]
    | cons u us => rw [valueWords, List.cons_inj_right, ih, List.getLast?_cons_cons]

end Alias

/-! ### What keeps while aliases follow pointers -/

/-- A relation between tables that holds between one and what becomes of it while nothing is
declared in it: pointers move, and that may happen any number of times. -/
structure AliasTable.IsFollowed (R : AliasTable → AliasTable → Prop) : Prop where
  refl : ∀ t, R t t
  trans : ∀ {t t' t''}, R t t' → R t' t'' → R t t''
  shift : ∀ (t : AliasTable) r delta, R t (t.shift r delta)

namespace AliasTable.IsFollowed

variable {R : AliasTable → AliasTable → Prop} {ctx : Context} (h : IsFollowed R)

include h

theorem track (t : AliasTable) (op : Operation) : R t (t.track op) := by
  rw [AliasTable.track]
  split
  · exact h.shift t _ _
  · exact h.shift t _ _
  · split
    · split
      · exact h.shift t _ _
      · exact h.refl t
    · exact h.refl t
  · exact h.refl t

theorem statement (ctx : Context) (row : List Token) :
    R ctx.aliases (ctx.statement row).2.aliases := by
  rw [Context.statement]
  split
  · exact h.refl _
  · dsimp only
    split
    · exact h.track _ _
    · exact h.refl _

theorem statements (ctx : Context) (rows : List (List Token)) :
    R ctx.aliases (ctx.statements rows).2.aliases := by
  induction rows generalizing ctx with
  | nil => exact h.refl _
  | cons row rest ih =>
    have hrow := h.statement ctx row
    rcases hstmt : ctx.statement row with ⟨e | stmt, mid⟩ <;> rw [hstmt] at hrow
    · rw [Context.statements, hstmt]
      exact hrow
    · rw [Context.snd_statements_cons hstmt]
      exact h.trans hrow (ih mid)

theorem plain (ctx : Context) (tokens : List Token) :
    R ctx.aliases (ctx.plain tokens).2.aliases := by
  rw [Context.plain]
  split
  · exact h.refl _
  · next row hrow =>
    have hkeeps := h.statement ctx row
    rcases hstmt : ctx.statement row with ⟨e | stmt, mid⟩ <;> rw [hstmt] at hkeeps <;> exact hkeeps

/-- A call declares no names. -/
theorem call (ctx : Context) (lhs : List Token) (arrow : Token) (rhs : List Token) :
    R ctx.aliases (ctx.call lhs arrow rhs).2.aliases := by
  rw [Context.call]
  rcases Call.read? ctx.aliases lhs arrow rhs with e | c
  · exact h.refl _
  · dsimp only
    rcases at? arrow c.lines with e | lines
    · exact h.refl _
    · dsimp only
      have hkeeps := h.statements ctx (lines.map fun line => line.map arrow.withVal)
      rcases hstmts : ctx.statements (lines.map fun line => line.map arrow.withVal)
        with ⟨e | stmts, mid⟩ <;> rw [hstmts] at hkeeps ⊢
      · exact hkeeps
      · exact h.trans hkeeps (h.shift _ _ _)

/-- An assignment declares the name in front of it, if it is accepted. -/
theorem assign {first : Token} {rhs : List Token}
    (hbind : ∀ stmts, (ctx.assign first rhs).1 = .ok stmts →
      ∀ (t : AliasTable) dst offset, R t (t.bind first.val dst offset)) :
    R ctx.aliases (ctx.assign first rhs).2.aliases := by
  rw [Context.assign] at hbind ⊢
  split
  · exact h.refl _
  · next row hrow =>
    have hkeeps := h.statement ctx row
    simp only [hrow] at hbind
    rcases hstmt : ctx.statement row with ⟨e | _ | ⟨loc, label | items | op⟩, mid⟩ <;>
      rw [hstmt] at hkeeps hbind
    case op => exact h.trans hkeeps (hbind _ rfl _ _ _)
    all_goals exact hkeeps

end AliasTable.IsFollowed

/-! ### Names keep their words -/

namespace AliasTable

variable {t t' t'' : AliasTable} {x : List Char}

/-- What the direct alias `$x` stands for is the same in another table. -/
def KeepsDirect (x : List Char) (t t' : AliasTable) : Prop :=
  ∀ text, t.get? ('$' :: x) = some (.direct text) → t'.get? ('$' :: x) = some (.direct text)

/-- A direct alias follows no pointer. -/
theorem isFollowed_keepsDirect (x : List Char) : IsFollowed (KeepsDirect x) where
  refl := fun _ _ h => h
  trans := fun h h' text htext => h' text (h text htext)
  shift := by
    intro t r delta text h
    rw [get?_shift, h]
    rfl

theorem KeepsDirect.refl (x : List Char) (t : AliasTable) : t.KeepsDirect x t :=
  (isFollowed_keepsDirect x).refl t

theorem KeepsDirect.trans (h : t.KeepsDirect x t') (h' : t'.KeepsDirect x t'') :
    t.KeepsDirect x t'' := (isFollowed_keepsDirect x).trans h h'

theorem keepsDirect_insert {name : List Char} (h : name ≠ '$' :: x) (t : AliasTable) (a : Alias) :
    t.KeepsDirect x (t.insert name a) := by
  intro text htext
  rw [get?_insert, if_neg h, htext]

/-- What is declared under both forms of another name. -/
theorem keepsDirect_insert_forms {name : List Char} (h : name.tail ≠ x) (t : AliasTable)
    (a b : Alias) : t.KeepsDirect x ((t.insert (valueName name) a).insert (refName name) b) := by
  refine (t.keepsDirect_insert ?_ a).trans (keepsDirect_insert ?_ _ b)
  · simpa [valueName] using h
  · simp [refName]

theorem ne_of_tail_ne {name : List Char} (h : name.tail ≠ x) : name ≠ '$' :: x := by
  rintro rfl
  exact h rfl

theorem keepsDirect_define {name : List Char} (h : name.tail ≠ x) (t : AliasTable)
    (operand : List Char) : t.KeepsDirect x (t.define name operand) := by
  rw [define]
  split
  · split
    · exact t.keepsDirect_insert_forms h _ _
    · exact t.keepsDirect_insert (ne_of_tail_ne h) _
  · exact t.keepsDirect_insert (ne_of_tail_ne h) _

theorem keepsDirect_defineIndexed {names : List (List Char)} (h : ∀ n ∈ names, n.tail ≠ x)
    (t : AliasTable) (r : Reg) (offset : Int) :
    t.KeepsDirect x (t.defineIndexed r offset names) := by
  induction names generalizing t offset with
  | nil => exact .refl x t
  | cons n ns ih =>
    rw [List.forall_mem_cons] at h
    rw [defineIndexed]
    exact (t.keepsDirect_insert (ne_of_tail_ne h.1) _).trans (ih h.2 _ _)

theorem keepsDirect_bind {name : List Char} (h : name.tail ≠ x) (t : AliasTable)
    (dst : Destination) (offset : Int) : t.KeepsDirect x (t.bind name dst offset) := by
  cases dst with
  | mem r => exact t.keepsDirect_insert_forms h _ _
  | _ => exact t.keepsDirect_insert (ne_of_tail_ne h) _

/-- The text that a name for values is declared with. -/
theorem get?_define (t : AliasTable) (x operand : List Char) :
    (t.define ('$' :: x) operand).get? ('$' :: x) = some (.direct (Alias.valueText operand)) := by
  rw [define, Alias.valueText, Alias.place?]
  rcases splitKind? operand with _ | ⟨value, kind⟩
  · dsimp only
    rw [get?_insert, if_pos rfl]
  · dsimp only
    by_cases hkind : kind = "mem".toList ∨ kind = "reg".toList
    · rw [if_pos hkind, if_pos hkind, get?_insert, if_neg (by simp [refName]), get?_insert]
      exact if_pos rfl
    · rw [if_neg hkind, if_neg hkind, get?_insert, if_pos rfl]

end AliasTable

/-- A line declares a name, or makes it the name of an assignment. -/
inductive Names : List Token → List Char → Prop
  | declaration {first mark : Token} {rest names rhs : List Token} {n : List Char}
    (hfirst : Alias.isName first.val = true)
    (hsplit : Context.splitAt? "as".toList (first :: rest) = some (names, mark, rhs))
    (hn : n ∈ Text.items (Text.unwords (names.map (·.val)))) : Names (first :: rest) n
  | assignment {first mark : Token} {rhs : List Token} (hfirst : Alias.isName first.val = true)
    (hsplit : Context.splitAt? "as".toList (first :: mark :: rhs) = none)
    (hmark : mark.val = "=".toList) : Names (first :: mark :: rhs) first.val

namespace Context

variable {ctx next last : Context} {x : List Char}

/-- A declaration of one name is for the whole operand, and one of several is for a register. -/
theorem declare_cases {first : Token} {names rhs : List Token} {aliases : AliasTable}
    (h : ctx.declare first names rhs = .ok aliases) :
    (∃ name, Text.items (Text.unwords (names.map (·.val))) = [name] ∧ rhs ≠ [] ∧
      aliases = ctx.aliases.define name (Text.unwords (rhs.map (·.val)))) ∨
    (∀ name, Text.items (Text.unwords (names.map (·.val))) ≠ [name]) ∧
      ∃ r, aliases =
        ctx.aliases.defineIndexed r 0 (Text.items (Text.unwords (names.map (·.val)))) := by
  rw [declare] at h
  dsimp only at h
  split at h
  · cases h
  obtain ⟨-, -, h⟩ := bind_eq_ok_iff.mp h
  rcases rhs with _ | ⟨source, rest⟩
  · cases h
  · dsimp only at h
    split at h
    · next name hname =>
      cases h
      exact .inl ⟨name, hname, List.cons_ne_nil _ _, rfl⟩
    · next hnames =>
      split at h
      · next r _ =>
        cases h
        exact .inr ⟨hnames, r, rfl⟩
      · cases h

/-- A declaration declares its names at most. -/
theorem keepsDirect_declare {first : Token} {names rhs : List Token} {aliases : AliasTable}
    (h : ctx.declare first names rhs = .ok aliases)
    (hnames : ∀ n ∈ Text.items (Text.unwords (names.map (·.val))), n.tail ≠ x) :
    ctx.aliases.KeepsDirect x aliases := by
  obtain ⟨name, hname, -, rfl⟩ | ⟨-, r, rfl⟩ := declare_cases h
  · exact AliasTable.keepsDirect_define (hnames name (by rw [hname]; simp)) _ _
  · exact AliasTable.keepsDirect_defineIndexed hnames _ _ _

/-- **A line leaves direct aliases as they are**, unless it is accepted and the name is on it. -/
theorem keepsDirect_expand {tokens : List Token}
    (h : ∀ stmts, (ctx.expand tokens).1 = .ok stmts → ∀ n, Names tokens n → n.tail ≠ x) :
    ctx.aliases.KeepsDirect x (ctx.expand tokens).2.aliases := by
  obtain ⟨lhs, arrow, rhs, -, hexpand⟩
    | ⟨first, rest, names, mark, rhs, rfl, hfirst, hsplit, hexpand⟩
    | ⟨first, mark, rhs, rfl, hfirst, hsplit, hmark, hexpand⟩ | hexpand := ctx.expand_cases tokens
    <;> rw [hexpand] at h ⊢
  · exact (AliasTable.isFollowed_keepsDirect x).call ctx lhs arrow rhs
  · rcases hdeclare : ctx.declare first names rhs with e | aliases <;> rw [hdeclare] at h
    · exact .refl x _
    · exact keepsDirect_declare hdeclare fun n hn => h _ rfl n (.declaration hfirst hsplit hn)
  · refine (AliasTable.isFollowed_keepsDirect x).assign fun stmts hstmts t dst offset => ?_
    have hname := h stmts hstmts _ (.assignment hfirst hsplit hmark)
    exact AliasTable.keepsDirect_bind hname t dst offset
  · exact (AliasTable.isFollowed_keepsDirect x).plain ctx tokens

/-- One context leads to another along lines that do not declare `$x` or `&x` again. -/
inductive Leads (x : List Char) : Context → Context → Prop
  | refl (ctx : Context) : Leads x ctx ctx
  | line {ctx last : Context} {tokens : List Token}
    (hnames : ∀ stmts, (ctx.expand tokens).1 = .ok stmts → ∀ n, Names tokens n → n.tail ≠ x)
    (hrest : Leads x (ctx.expand tokens).2 last) : Leads x ctx last

theorem Leads.keepsDirect (h : ctx.Leads x last) : ctx.aliases.KeepsDirect x last.aliases := by
  induction h with
  | refl ctx => exact .refl x _
  | line hnames _ ih => exact (keepsDirect_expand hnames).trans ih

end Context

/-! ### Declared names on later lines -/

namespace Context

variable {ctx next last : Context} {stmts : List (Located Statement)} {x : List Char}

/-- The tokens that make a line something other than one that is taken as it is. -/
def marks : List (List Char) := [Call.arrow, "as".toList, "=".toList]

theorem expand_of_no_marks (ctx : Context) {tokens : List Token}
    (h : ∀ tk ∈ tokens, tk.val ∉ marks) : ctx.expand tokens = ctx.plain tokens := by
  have hsplit : ∀ t ∈ marks, splitAt? t tokens = none := fun t ht =>
    splitAt?_eq_none fun tk htk hval => h tk htk (hval ▸ ht)
  obtain ⟨lhs, arrow, rhs, hcall, -⟩ | ⟨first, rest, names, mark, rhs, -, -, has, -⟩
    | ⟨first, mark, rhs, rfl, -, -, hmark, -⟩ | hplain := ctx.expand_cases tokens
  · rw [hsplit Call.arrow (by decide)] at hcall
    cases hcall
  · rw [hsplit "as".toList (by decide)] at has
    cases has
  · exact absurd (show mark.val ∈ marks by rw [hmark]; decide) (h mark (by simp))
  · exact hplain

/-- What a declaration of one name leaves behind. -/
theorem get?_of_declaration {name mark : Token} {rhs : List Token} {ws : List (List Char)}
    (hname : name.val = '$' :: x) (hword : Text.IsWord name.val) (hcomma : ',' ∉ x)
    (hmark : mark.val = "as".toList) (hws : rhs.map (·.val) = ws) (hwords : ∀ w ∈ ws, Text.IsWord w)
    (h : ctx.expand (name :: mark :: rhs) = (.ok stmts, next)) :
    ∃ text, next.aliases.get? ('$' :: x) = some (.direct text) ∧
      Text.words text = Alias.valueWords ws ∧ ws ≠ [] := by
  have hne : ∀ t : List Char, t.head? ≠ some '$' → name.val ≠ t := by
    rintro t ht rfl
    rw [hname] at ht
    exact ht rfl
  have harrow := splitAt?_arrow_of_expand (hne _ (by decide)) (by rw [hmark]; decide) h
  have hsplit : splitAt? "as".toList (name :: mark :: rhs) = some ([name], mark, rhs) := by
    rw [splitAt?, if_neg (hne _ (by decide)), splitAt?, if_pos hmark]
    rfl
  have halias : Alias.isName name.val = true := by
    rw [hname]
    rfl
  rw [expand_of_declaration harrow halias hsplit] at h
  rcases hdeclare : ctx.declare name [name] rhs with e | aliases <;> rw [hdeclare] at h
  · simp at h
  obtain ⟨-, rfl⟩ := Prod.mk.inj h
  have hitems : Text.items (Text.unwords ([name].map (·.val))) = ['$' :: x] := by
    rw [List.map_singleton, Text.unwords, List.intercalate_singleton, ← hname]
    exact hword.items_eq (by simpa [hname] using hcomma)
  obtain ⟨name', hname', hrhs, rfl⟩ | ⟨hnames, -⟩ := declare_cases hdeclare
  · obtain rfl := List.singleton_inj.mp (hitems.symm.trans hname')
    have hne : ws ≠ [] := by simpa [← hws] using hrhs
    refine ⟨_, AliasTable.get?_define _ x _, ?_, hne⟩
    rw [hws, Alias.valueText_unwords hne]
    exact Text.words_unwords (Alias.isWord_of_mem_valueWords hwords)
  · exact absurd hitems (hnames _)

/-- A line with a name in it comes to the same as the line with the words of its operand in their
place, if those are not such as would be read in another way there. -/
theorem expand_append_cons {tk : Token} {text : List Char} {ws : List (List Char)}
    (hname : Alias.isName tk.val = true) (hget : ctx.aliases.get? tk.val = some (.direct text))
    (hwords : Text.words text = ws) (hne : ws ≠ []) (halias : ∀ w ∈ ws, Alias.isName w = false)
    (hnumber : ∀ w, ws.head? = some w → numericImm? w = none) (front back : List Token) :
    (∀ first, ctx.assign first (front ++ tk :: back)
      = ctx.assign first (front ++ ws.map tk.withVal ++ back)) ∧
    ((∀ u ∈ front ++ back, u.val ∉ marks) → (∀ w ∈ ws, w ∉ marks) →
      ctx.expand (front ++ tk :: back) = ctx.expand (front ++ ws.map tk.withVal ++ back)) := by
  have hsame : ctx.aliases.substitute (front ++ tk :: back)
      = ctx.aliases.substitute (front ++ ws.map tk.withVal ++ back) := by
    rw [AliasTable.substitute_append_cons hname hget, hwords]
    refine (ctx.aliases.substitute_append_append ?_ ?_ ?_ front back).symm
    · simpa using hne
    · simpa [Located.withVal] using halias
    · simpa [Located.withVal] using hnumber
  refine ⟨fun first => by rw [assign, assign, hsame], fun hmarks hmarksWords => ?_⟩
  have hmarksName : ∀ u ∈ front ++ tk :: back, u.val ∉ marks := by
    intro u hu
    rcases List.mem_append.mp hu with hu | hu
    · exact hmarks u (List.mem_append_left _ hu)
    rcases List.mem_cons.mp hu with rfl | hu
    · intro hmem
      have hmarksNames : ∀ m ∈ marks, Alias.isName m = false := by decide
      rw [hmarksNames _ hmem] at hname
      cases hname
    · exact hmarks u (List.mem_append_right _ hu)
  have hmarksWritten : ∀ u ∈ front ++ ws.map tk.withVal ++ back, u.val ∉ marks := by
    intro u hu
    rcases List.mem_append.mp hu with hu | hu
    · rcases List.mem_append.mp hu with hu | hu
      · exact hmarks u (List.mem_append_left _ hu)
      · obtain ⟨w, hw, rfl⟩ := List.mem_map.mp hu
        exact hmarksWords w hw
    · exact hmarks u (List.mem_append_right _ hu)
  rw [ctx.expand_of_no_marks hmarksName, ctx.expand_of_no_marks hmarksWritten, plain, plain, hsame]

/-- **What becomes of a declared name.** On all lines behind its declaration, up to the next one
that declares it again, a name is replaced by the words of its operand, of which the last is made a
memory operand if it reads like a register or a memory operand. Where that leaves the words as they
are, and there are no names among them nor a number in front, a line comes to the same as it would
with the operand written in the place of the name. -/
theorem substitute_of_declared {line : Nat} {t : List Char} {name mark : Token} {rhs : List Token}
    (hscan : Token.scan line t = .ok (name :: mark :: rhs)) (hname : name.val = '$' :: x)
    (hcomma : ',' ∉ x) (hmark : mark.val = "as".toList) {ws : List (List Char)}
    (hws : rhs.map (·.val) = ws) (h : ctx.expand (name :: mark :: rhs) = (.ok stmts, next))
    (hlast : next.Leads x last) :
    (∀ front tk back, tk.val = name.val →
      last.aliases.substitute (front ++ tk :: back) = do
        let before ← last.aliases.substitute front
        let behind ← last.aliases.substitute back
        return before ++ ((Alias.valueWords ws).map tk.withVal ++ behind)) ∧
    (Alias.valueWords ws = ws ↔
      ∀ w, ws.getLast? = some w → Alias.place? w = none ∨ ".mem".toList <:+ w) ∧
    (Alias.valueWords ws = ws → (∀ w ∈ ws, Alias.isName w = false) →
      (∀ w, ws.head? = some w → numericImm? w = none) → ∀ front tk back, tk.val = name.val →
        (∀ first, last.assign first (front ++ tk :: back)
          = last.assign first (front ++ ws.map tk.withVal ++ back)) ∧
        ((∀ u ∈ front ++ back, u.val ∉ marks) → (∀ w ∈ ws, w ∉ marks) →
          last.expand (front ++ tk :: back)
            = last.expand (front ++ ws.map tk.withVal ++ back))) := by
  have hscanned := Token.isWord_of_scan hscan
  rw [List.forall_mem_cons, List.forall_mem_cons] at hscanned
  have hwords : ∀ w ∈ ws, Text.IsWord w := by simpa [← hws] using hscanned.2.2
  obtain ⟨text, hget, htext, hne⟩ :=
    get?_of_declaration hname hscanned.1 hcomma hmark hws hwords h
  have hlater : ∀ tk : Token, tk.val = name.val → Alias.isName tk.val = true ∧
      last.aliases.get? tk.val = some (.direct text) := by
    intro tk htk
    rw [htk, hname]
    exact ⟨rfl, hlast.keepsDirect text hget⟩
  refine ⟨fun front tk back htk => ?_, Alias.valueWords_eq_iff,
    fun hverbatim halias hnumber front tk back htk => ?_⟩
  · obtain ⟨halias, hdirect⟩ := hlater tk htk
    rw [← htext]
    exact AliasTable.substitute_append_cons halias hdirect front back
  · obtain ⟨hisName, hdirect⟩ := hlater tk htk
    exact expand_append_cons hisName hdirect (htext.trans hverbatim) hne halias hnumber front back

/-- A memory operand with an offset has two words. A name for it stands for both of them, also on a
line that follows another declaration. -/
theorem substitute_of_declared_offset : ∃ next last : Context,
    expand {} (Token.row 1 1 ["$pair".toList, "as".toList, "1.mem".toList, "2.imm".toList])
      = (.ok [], next) ∧
    (next.expand (Token.row 2 1 ["$other".toList, "as".toList, "3.reg".toList])).2 = last ∧
    last.expand [⟨⟨3, 1⟩, "copy".toList⟩, ⟨⟨3, 6⟩, "$pair".toList⟩, ⟨⟨3, 12⟩, "2.reg".toList⟩]
      = last.expand [⟨⟨3, 1⟩, "copy".toList⟩, ⟨⟨3, 6⟩, "1.mem".toList⟩,
        ⟨⟨3, 6⟩, "2.imm".toList⟩, ⟨⟨3, 12⟩, "2.reg".toList⟩] := by
  have hscan : Token.scan 1 "$pair as 1.mem 2.imm".toList
      = .ok (Token.row 1 1 ["$pair".toList, "as".toList, "1.mem".toList, "2.imm".toList]) := rfl
  have hdeclared : expand {} (Token.row 1 1
      ["$pair".toList, "as".toList, "1.mem".toList, "2.imm".toList])
        = (.ok [], { aliases := AliasTable.define {} "$pair".toList "1.mem 2.imm".toList }) := rfl
  have hlast : Leads "pair".toList
      { aliases := AliasTable.define {} "$pair".toList "1.mem 2.imm".toList }
      (expand { aliases := AliasTable.define {} "$pair".toList "1.mem 2.imm".toList }
        (Token.row 2 1 ["$other".toList, "as".toList, "3.reg".toList])).2 := by
    refine .line (fun stmts _ n hn => ?_) (.refl _)
    cases hn with
    | declaration _ hsplit hn =>
      cases hsplit
      have hitems : Text.items (Text.unwords [['$', 'o', 't', 'h', 'e', 'r']])
        = ["$other".toList] := by decide
      simp_all
    | assignment _ _ hmark => cases hmark
  obtain ⟨-, hiff, hwritten⟩ := substitute_of_declared hscan rfl (by decide) rfl rfl hdeclared hlast
  have hverbatim := hiff.mpr (by decide)
  exact ⟨_, _, hdeclared, rfl, (hwritten hverbatim (by decide) (by decide)
    [⟨⟨3, 1⟩, "copy".toList⟩] ⟨⟨3, 6⟩, "$pair".toList⟩ [⟨⟨3, 12⟩, "2.reg".toList⟩] rfl).2
    (by decide) (by decide)⟩

/-- **An operand of two words need not be what its name stands for.** The name for a memory operand
and a register behind it stands for two memory operands, so that a copy of the one to the other
stores to memory. -/
theorem exists_pair_of_memory : ∃ next : Context,
    expand {} (Token.row 1 1 ["$pair".toList, "as".toList, "1.mem".toList, "2.reg".toList])
      = (.ok [], next) ∧
    next.aliases.substitute [⟨⟨2, 6⟩, "$pair".toList⟩]
      = .ok [⟨⟨2, 6⟩, "1.mem".toList⟩, ⟨⟨2, 6⟩, "2.mem".toList⟩] ∧
    (next.expand [⟨⟨2, 1⟩, "copy".toList⟩, ⟨⟨2, 6⟩, "$pair".toList⟩]).1
      = .ok [⟨⟨2, 1⟩, .op ⟨.copy, .mem .r1, .mem .r2, .zero, .zero, .always, false⟩⟩] ∧
    (next.expand [⟨⟨2, 1⟩, "copy".toList⟩, ⟨⟨2, 6⟩, "1.mem".toList⟩, ⟨⟨2, 6⟩, "2.reg".toList⟩]).1
      = .ok [⟨⟨2, 1⟩, .op ⟨.copy, .mem .r1, .reg .r2, .zero, .zero, .always, false⟩⟩] :=
  ⟨{ aliases := AliasTable.define {} "$pair".toList "1.mem 2.reg".toList }, rfl, rfl, rfl, rfl⟩

end Context

end Assembly

end WordMachine
