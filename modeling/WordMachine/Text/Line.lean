import WordMachine.Text.Blank

/-!
# Lines and their pieces

Source text is handled as lists of characters. A text is cut into lines at line feeds, which may
have a carriage return before them; a line is cut into words at white space.

## Main statements

* `ne_nil_of_mem_words`: no word is empty
* `cutLast?_eq_some_iff`: a text is cut at the last occurrence of a character
-/

namespace WordMachine

namespace Text

/-- Leaves out the white space at the front. -/
def trimStart (t : List Char) : List Char := t.dropWhile isBlank

/-- Leaves out the white space at the end. -/
def trimEnd (t : List Char) : List Char := (t.reverse.dropWhile isBlank).reverse

/-- Leaves out the white space at both ends. -/
def trim (t : List Char) : List Char := trimStart (trimEnd t)

/-- The pieces between stretches of white space. -/
def words (t : List Char) : List (List Char) := (t.splitOnP isBlank).filter (!·.isEmpty)

/-- The pieces between commas, without the white space around them. Empty pieces are left out. -/
def items (t : List Char) : List (List Char) :=
  ((t.splitOn ',').map trim).filter (!·.isEmpty)

/-- Leaves out one carriage return at the end. -/
def dropReturn (t : List Char) : List Char :=
  if t.getLast? = some '\r' then t.dropLast else t

/-- The lines of a text. A line feed ends a line, together with one carriage return before it; what
follows the last line feed is a line unless it is empty. -/
def lines (t : List Char) : List (List Char) :=
  let pieces := t.splitOn '\n'
  pieces.dropLast.map dropReturn ++ pieces.getLast?.toList.filter (!·.isEmpty)

/-- The texts, one after another, with a space between each and the next. -/
def unwords (ts : List (List Char)) : List Char := List.intercalate [' '] ts

/-- What stands before and after the first occurrence of a character. -/
def cutFirst? (c : Char) : List Char → Option (List Char × List Char)
  | [] => none
  | d :: t => if d = c then some ([], t) else (cutFirst? c t).map fun (a, b) => (d :: a, b)

/-- What stands before and after the last occurrence of a character. -/
def cutLast? (c : Char) : List Char → Option (List Char × List Char)
  | [] => none
  | d :: t =>
    match cutLast? c t with
    | some (a, b) => some (d :: a, b)
    | none => if d = c then some ([], t) else none

/-- What stands before a final character, if the text ends with it. -/
def dropFinal? (c : Char) (t : List Char) : Option (List Char) :=
  if t.getLast? = some c then some t.dropLast else none

theorem ne_nil_of_mem_words {t w : List Char} (h : w ∈ words t) : w ≠ [] := by
  simp only [words, List.mem_filter] at h
  intro hw
  simp [hw] at h

theorem cutLast?_eq_none_iff {c : Char} {t : List Char} : cutLast? c t = none ↔ c ∉ t := by
  induction t with
  | nil => simp [cutLast?]
  | cons d t ih =>
    cases h : cutLast? c t with
    | none =>
      have hc := ih.mp h
      by_cases hd : d = c
      · simp [cutLast?, h, hd]
      · simp [cutLast?, h, hd, hc, Ne.symm hd]
    | some ab =>
      have hc : c ∈ t := by
        by_cases hm : c ∈ t
        · exact hm
        · rw [ih.mpr hm] at h
          cases h
      simp [cutLast?, h, hc]

/-- The cut is made at the last occurrence, and nowhere else. -/
theorem cutLast?_eq_some_iff {c : Char} {t a b : List Char} :
    cutLast? c t = some (a, b) ↔ t = a ++ c :: b ∧ c ∉ b := by
  induction t generalizing a b with
  | nil => simp [cutLast?]
  | cons d t ih =>
    cases h : cutLast? c t with
    | some ab =>
      obtain ⟨a', b'⟩ := ab
      have hs := ih.mp h
      simp only [cutLast?, h, Option.some.injEq, Prod.mk.injEq]
      constructor
      · rintro ⟨rfl, rfl⟩
        exact ⟨by rw [hs.1]; rfl, hs.2⟩
      · rintro ⟨he, hb⟩
        cases a with
        | nil =>
          simp only [List.nil_append, List.cons.injEq] at he
          exact absurd (he.2 ▸ hs.1 ▸ by simp : c ∈ b) hb
        | cons x a =>
          simp only [List.cons_append, List.cons.injEq] at he
          have := ih.mpr ⟨he.2, hb⟩
          rw [h] at this
          simp only [Option.some.injEq, Prod.mk.injEq] at this
          exact ⟨by rw [he.1, this.1], this.2⟩
    | none =>
      have hc := cutLast?_eq_none_iff.mp h
      simp only [cutLast?, h]
      by_cases hd : d = c
      · subst hd
        simp only [if_true, Option.some.injEq, Prod.mk.injEq]
        constructor
        · rintro ⟨rfl, rfl⟩
          exact ⟨rfl, hc⟩
        · rintro ⟨he, hb⟩
          cases a with
          | nil =>
            simp only [List.nil_append, List.cons.injEq, true_and] at he
            exact ⟨rfl, he⟩
          | cons x a =>
            simp only [List.cons_append, List.cons.injEq] at he
            exact absurd (by rw [he.2]; simp : d ∈ t) hc
      · simp only [hd, if_false, reduceCtorEq, false_iff, not_and]
        intro he
        cases a with
        | nil =>
          simp only [List.nil_append, List.cons.injEq] at he
          exact absurd he.1 hd
        | cons x a =>
          simp only [List.cons_append, List.cons.injEq] at he
          exact absurd (by rw [he.2]; simp : c ∈ t) hc

end Text

end WordMachine
