import WordMachine.Proofs.CallLines

/-!
# Replacing aliases

Aliases are replaced from left to right, and what a token comes to does not depend on the tokens
before it. It may depend on the one behind it: a number there is added to the offset of a tracked
alias. So the tokens of a line may be replaced part by part, as long as no part begins with a number
(`AliasTable.substitute_append`), and a number is never an alias.

The function that replaces aliases keeps what it has done behind it. It is taken apart into what one
token comes to (`AliasTable.replaceFirst`) and the rest, and all proofs follow that.

## Main results

* `AliasTable.substitute_append`: tokens may be replaced a part at a time
* `AliasTable.substitute_append_cons`: a direct alias is replaced by its words
* `AliasTable.substitute_append_append`: tokens that are no aliases stay as they are
-/

namespace WordMachine

namespace Assembly

namespace AliasTable

/-- What the first of some tokens comes to, and the tokens that are left behind it: all others, but
for an immediate that was added to the offset of a tracked alias. -/
def replaceFirst (t : AliasTable) (tk : Token) (rest : List Token) :
    Checked (List Token × List Token) :=
  if Alias.isName tk.val then
    match t.get? tk.val with
    | none => .error (tk.withVal (.invalidOperand tk.val))
    | some (.direct text) => .ok ((Text.words text).map tk.withVal, rest)
    | some (.tracked r offset) =>
      match rest with
      | [] => .ok (trackedTokens tk r offset, [])
      | next :: others =>
        match numericImm? next.val with
        | none => .ok (trackedTokens tk r offset, next :: others)
        | some k =>
          match Alias.add? offset k with
          | none => .error (next.withVal (.invalidOperand next.val))
          | some sum => .ok (trackedTokens tk r sum, others)
  else .ok ([tk], rest)

theorem substituteAfter_cons (t : AliasTable) (done : List Token) (tk : Token) (rest : List Token) :
    t.substituteAfter done (tk :: rest) = (t.replaceFirst tk rest).bind fun (row, others) =>
      t.substituteAfter (row.reverse ++ done) others := by
  rw [substituteAfter, replaceFirst]
  cases Alias.isName tk.val with
  | false => rfl
  | true =>
    rcases t.get? tk.val with _ | text | ⟨r, offset⟩
    · rfl
    · rfl
    · rcases rest with _ | ⟨next, others⟩
      · rfl
      · rw [if_pos rfl, if_pos rfl]
        dsimp only
        rcases numericImm? next.val with _ | k
        · rfl
        · dsimp only
          rcases Alias.add? offset k with _ | sum <;> rfl

theorem length_of_replaceFirst {t : AliasTable} {tk : Token} {rest row others : List Token}
    (h : t.replaceFirst tk rest = .ok (row, others)) : others.length ≤ rest.length := by
  rw [replaceFirst] at h
  repeat' split at h
  all_goals first | cases h; simp | cases h

/-- A token that is no number is left to what comes behind the first token. -/
theorem replaceFirst_append_cons (t : AliasTable) (tk : Token) (rest back : List Token)
    {next : Token} (h : numericImm? next.val = none) : t.replaceFirst tk (rest ++ next :: back) =
      (t.replaceFirst tk rest).map fun (row, others) => (row, others ++ next :: back) := by
  rw [replaceFirst, replaceFirst]
  cases Alias.isName tk.val with
  | false => rfl
  | true =>
    rcases t.get? tk.val with _ | text | ⟨r, offset⟩
    · rfl
    · rfl
    · rcases rest with _ | ⟨second, others⟩
      · rw [if_pos rfl, if_pos rfl, List.nil_append]
        dsimp only
        rw [h]
        rfl
      · rw [if_pos rfl, if_pos rfl, List.cons_append]
        dsimp only
        rcases numericImm? second.val with _ | k
        · rfl
        · dsimp only
          rcases Alias.add? offset k with _ | sum <;> rfl

/-- What was done before stands in front of all that follows. -/
theorem substituteAfter_eq (t : AliasTable) (done tokens : List Token) :
    t.substituteAfter done tokens = (t.substitute tokens).map (done.reverse ++ ·) := by
  rcases tokens with _ | ⟨tk, rest⟩
  · simp [substitute, substituteAfter, Except.map]
  · rw [substitute, substituteAfter_cons, substituteAfter_cons]
    rcases hfirst : t.replaceFirst tk rest with e | ⟨row, others⟩
    · rfl
    · have hothers := length_of_replaceFirst hfirst
      simp only [Except.bind]
      rw [substituteAfter_eq t _ others, substituteAfter_eq t (row.reverse ++ []) others]
      rcases t.substitute others with e | behind
      · rfl
      · simp [Except.map]
termination_by tokens.length
decreasing_by all_goals grind

/-- What the first token comes to stands in front of what the others do. -/
theorem substitute_cons (t : AliasTable) (tk : Token) (rest : List Token) :
    t.substitute (tk :: rest) = (t.replaceFirst tk rest).bind fun (row, others) =>
      (t.substitute others).map (row ++ ·) := by
  rw [substitute, substituteAfter_cons]
  rcases t.replaceFirst tk rest with e | ⟨row, others⟩
  · rfl
  · simp only [Except.bind]
    rw [substituteAfter_eq, List.append_nil, List.reverse_reverse]

/-- Tokens may be replaced a part at a time, if no part begins with a number that could belong to
the part before it. -/
theorem substitute_append (t : AliasTable) (front back : List Token) {next : Token}
    (h : numericImm? next.val = none) : t.substitute (front ++ next :: back) = do
      let before ← t.substitute front
      let behind ← t.substitute (next :: back)
      return before ++ behind := by
  rcases front with _ | ⟨tk, rest⟩
  · rw [List.nil_append, substitute.eq_1 t [], substituteAfter, List.reverse_nil, ok_bind]
    rcases t.substitute (next :: back) with e | behind <;> rfl
  · rw [List.cons_append, substitute, substitute.eq_1 t (tk :: rest), substituteAfter_cons,
      substituteAfter_cons, replaceFirst_append_cons t tk rest back h]
    rcases hfirst : t.replaceFirst tk rest with e | ⟨row, others⟩
    · rfl
    · have hothers := length_of_replaceFirst hfirst
      simp only [Except.map, Except.bind]
      rw [substituteAfter_eq, substituteAfter_eq, substitute_append t others back h]
      rcases t.substitute others with e | before
      · rfl
      · rw [ok_bind]
        rcases t.substitute (next :: back) with e | behind
        · rfl
        · simp [ok_bind, Except.map, pure, Except.pure]
termination_by front.length
decreasing_by all_goals grind

/-- Tokens that stand in front of a part may be put there when all parts are done. -/
theorem bind_map_append (front back : Checked (List Token)) (us : List Token) :
    (do
      let before ← front
      let behind ← back.map (us ++ ·)
      return before ++ behind) = do
      let before ← front
      let behind ← back
      return before ++ (us ++ behind) := by
  rcases front with e | before
  · rfl
  · rcases back with e | behind <;> rfl

/-- An alias is no number. -/
theorem numericImm?_of_isName {u : List Char} (h : Alias.isName u = true) :
    numericImm? u = none := by
  rcases hk : numericImm? u with _ | k
  · rfl
  · rw [Call.isName_of_numericImm hk] at h
    cases h

/-- A direct alias is replaced by its words, and nothing else is changed by it. -/
theorem substitute_append_cons {t : AliasTable} {tk : Token} {text : List Char}
    (hname : Alias.isName tk.val = true) (hget : t.get? tk.val = some (.direct text))
    (front back : List Token) : t.substitute (front ++ tk :: back) = do
      let before ← t.substitute front
      let behind ← t.substitute back
      return before ++ ((Text.words text).map tk.withVal ++ behind) := by
  have hfirst : t.replaceFirst tk back = .ok ((Text.words text).map tk.withVal, back) := by
    rw [replaceFirst, if_pos hname, hget]
  rw [t.substitute_append front back (numericImm?_of_isName hname), substitute_cons, hfirst]
  exact bind_map_append _ _ _

/-- Tokens without aliases stay as they are among others. -/
theorem substitute_append_append (t : AliasTable) {us : List Token} (hne : us ≠ [])
    (halias : ∀ u ∈ us, Alias.isName u.val = false)
    (hnumber : ∀ u, us.head? = some u → numericImm? u.val = none) (front back : List Token) :
    t.substitute (front ++ us ++ back) = do
      let before ← t.substitute front
      let behind ← t.substitute back
      return before ++ (us ++ behind) := by
  have hafter : ∀ done, t.substituteAfter done (us ++ back)
      = t.substituteAfter (us.reverse ++ done) back := by
    clear hne hnumber
    induction us with
    | nil => exact fun done => rfl
    | cons u us ih =>
      rw [List.forall_mem_cons] at halias
      intro done
      rw [List.cons_append, substituteAfter, halias.1, if_neg Bool.false_ne_true, ih halias.2]
      simp
  obtain ⟨u, rest, rfl⟩ := List.exists_cons_of_ne_nil hne
  rw [List.append_assoc, List.cons_append, t.substitute_append front _ (hnumber u rfl),
    substitute.eq_1 t (u :: (rest ++ back)), ← List.cons_append, hafter, substituteAfter_eq,
    List.append_nil, List.reverse_reverse]
  exact bind_map_append _ _ _

end AliasTable

end Assembly

end WordMachine
