import WordMachine.Assembly.Error

/-!
# Answers that may be errors

A reader of lines is a chain of steps, each of which may refuse. What the whole accepts is found by
taking the chain apart, so there is one lemma here for each way of putting steps together. Later
files rewrite with these and never open `Except.bind`.
-/

namespace WordMachine

namespace Assembly

variable {ε α β : Type}

theorem bind_eq_ok_iff {x : Except ε α} {f : α → Except ε β} {b : β} :
    (x >>= f) = .ok b ↔ ∃ a, x = .ok a ∧ f a = .ok b := by
  cases x with
  | error e => simp [bind, Except.bind]
  | ok a => simp [bind, Except.bind]

theorem ok_bind (a : α) (f : α → Except ε β) : ((.ok a : Except ε α) >>= f) = f a := rfl

theorem pure_eq_ok_iff {a b : α} : (pure a : Except ε α) = .ok b ↔ a = b := by
  simp [pure, Except.pure]

theorem map_eq_ok_iff {x : Except ε α} {f : α → β} {b : β} :
    x.map f = .ok b ↔ ∃ a, x = .ok a ∧ f a = b := by
  cases x <;> simp [Except.map]

theorem toOption_eq_some_iff {x : Except ε α} {a : α} : x.toOption = some a ↔ x = .ok a := by
  cases x <;> simp [Except.toOption]

theorem at?_eq_ok_iff {tk : Token} {r : Except LineError α} {a : α} :
    at? tk r = .ok a ↔ r = .ok a := by
  cases r with
  | error e => constructor <;> intro h <;> cases h
  | ok b =>
    constructor
    · intro h
      cases h
      rfl
    · intro h
      cases h
      rfl

@[simp] theorem at?_ok (tk : Token) (a : α) : at? tk (.ok a : Except LineError α) = .ok a := rfl

theorem checkRange_eq_ok_iff {r : Range} {v k : Int} :
    checkRange r v = .ok k ↔ v ∈ r ∧ v = k := by
  have hmem : r.contains v = true ↔ v ∈ r := Iff.rfl
  rw [checkRange]
  by_cases h : v ∈ r
  · rw [if_pos (hmem.mpr h)]
    simp [h]
  · rw [if_neg (mt hmem.mp h)]
    simp [h]

end Assembly

end WordMachine
