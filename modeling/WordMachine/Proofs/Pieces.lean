import WordMachine.Text.Line

/-!
# Pieces of a text

A text is cut at white space, at commas and at brackets, and trimmed in between. What matters of a
piece in the end are its words, and neither trimming nor white space at its ends changes those. So
the words of a piece can be found without following where it was trimmed.

## Main results

* `Text.words_trim`, `Text.trim_eq_nil_iff`: a text and what is left of it when it is trimmed
* `Text.map_words_items`: the words of the items of a text
* `Text.words_unwords`: the words of a text that was put together of words
* `Text.cutFirst?_append`, `Text.dropFinal?_append`: cutting at brackets
-/

namespace WordMachine

namespace Text

/-! ### White space -/

theorem words_cons_of_blank {c : Char} (h : isBlank c = true) (t : List Char) :
    words (c :: t) = words t := by
  rw [words, List.splitOnP_cons_eq_if_modifyHead, if_pos h]
  rfl

theorem words_append_of_blank {c : Char} (h : isBlank c = true) (t : List Char) :
    words (t ++ [c]) = words t := by
  rw [words, List.splitOnP_append_cons t [] h, List.filter_append]
  exact List.append_nil _

theorem words_cons_ne_nil {c : Char} (h : isBlank c = false) (t : List Char) :
    words (c :: t) ≠ [] := by
  obtain ⟨piece, pieces, hpieces⟩ :=
    List.exists_cons_of_ne_nil (List.splitOnP_ne_nil isBlank t)
  have hne : ¬ isBlank c = true := by simp [h]
  rw [words, List.splitOnP_cons_eq_if_modifyHead, if_neg hne, hpieces]
  simp

theorem words_trimStart (t : List Char) : words (trimStart t) = words t := by
  rw [trimStart]
  induction t with
  | nil => rfl
  | cons c t ih =>
    cases h : isBlank c with
    | true => rw [List.dropWhile_cons_of_pos h, ih, words_cons_of_blank h]
    | false => rw [List.dropWhile_cons_of_neg (by simp [h])]

theorem words_trimEnd (t : List Char) : words (trimEnd t) = words t := by
  suffices h : ∀ u : List Char, words (u.dropWhile isBlank).reverse = words u.reverse by
    have hall := h t.reverse
    rwa [List.reverse_reverse] at hall
  intro u
  induction u with
  | nil => rfl
  | cons c u ih =>
    cases h : isBlank c with
    | true =>
      rw [List.dropWhile_cons_of_pos h, ih, List.reverse_cons, words_append_of_blank h]
    | false => rw [List.dropWhile_cons_of_neg (by simp [h])]

/-- White space around a text belongs to none of its words. -/
theorem words_trim (t : List Char) : words (trim t) = words t := by
  rw [trim, words_trimStart, words_trimEnd]

/-- A text has no words exactly if it is all white space. -/
theorem trim_eq_nil_iff {t : List Char} : trim t = [] ↔ words t = [] := by
  constructor
  · intro h
    rw [← words_trim, h]
    rfl
  · intro h
    rw [← words_trim] at h
    cases htrim : trim t with
    | nil => rfl
    | cons c u =>
      have hhead : isBlank c = false := by
        have hdrop := List.head?_dropWhile_not isBlank (trimEnd t)
        rw [show (trimEnd t).dropWhile isBlank = c :: u from htrim] at hdrop
        simpa using hdrop
      rw [htrim] at h
      exact absurd h (words_cons_ne_nil hhead u)

/-- The words of the items of a text are the words of its pieces between commas, without the pieces
that are all white space. -/
theorem map_words_items (t : List Char) :
    (items t).map words = ((t.splitOn ',').map words).filter (!·.isEmpty) := by
  rw [items]
  induction t.splitOn ',' with
  | nil => rfl
  | cons piece pieces ih =>
    rw [List.map_cons, List.map_cons]
    by_cases h : words piece = []
    · have htrim := trim_eq_nil_iff.mpr h
      rw [List.filter_cons_of_neg (by simp [htrim]), List.filter_cons_of_neg (by simp [h]), ih]
    · have htrim := mt trim_eq_nil_iff.mp h
      rw [List.filter_cons_of_pos (by simpa using htrim),
        List.filter_cons_of_pos (by simpa using h), List.map_cons, ih, words_trim]

/-! ### Words -/

/-- A text that is a word of its own: there is something in it, and none of it is white space. -/
def IsWord (t : List Char) : Prop := t ≠ [] ∧ ∀ c ∈ t, isBlank c = false

instance (t : List Char) : Decidable (IsWord t) :=
  inferInstanceAs (Decidable (_ ∧ _))

theorem unwords_cons_cons (t u : List Char) (ts : List (List Char)) :
    unwords (t :: u :: ts) = t ++ ' ' :: unwords (u :: ts) := by
  rw [unwords, List.intercalate_cons_cons, List.append_assoc]
  rfl

theorem words_append_cons {c : Char} (h : isBlank c = true) (t u : List Char) :
    words (t ++ c :: u) = words t ++ words u := by
  rw [words, List.splitOnP_append_cons t u h, List.filter_append]
  rfl

theorem IsWord.words_eq {t : List Char} (h : IsWord t) : words t = [t] := by
  rw [words, List.splitOnP_eq_singleton h.2, List.filter_cons_of_pos (by simpa using h.1)]
  rfl

/-- Words with single spaces between them are the words of the text. -/
theorem words_unwords {ts : List (List Char)} (h : ∀ t ∈ ts, IsWord t) :
    words (unwords ts) = ts := by
  induction ts with
  | nil => rfl
  | cons t ts ih =>
    rw [List.forall_mem_cons] at h
    cases ts with
    | nil =>
      rw [unwords, List.intercalate_singleton]
      exact h.1.words_eq
    | cons u us =>
      rw [unwords_cons_cons, words_append_cons (by decide), h.1.words_eq, ih h.2]
      rfl

/-- A word without a comma is the only item of itself. -/
theorem IsWord.items_eq {t : List Char} (h : IsWord t) (hcomma : ',' ∉ t) : items t = [t] := by
  have hdrop : ∀ u : List Char, (∀ c ∈ u, isBlank c = false) → u.dropWhile isBlank = u := by
    intro u hu
    cases u with
    | nil => rfl
    | cons c u => exact List.dropWhile_cons_of_neg (by simp [hu c List.mem_cons_self])
  have htrim : trim t = t := by
    rw [trim, trimEnd, hdrop t.reverse fun c hc => h.2 c (List.mem_reverse.mp hc),
      List.reverse_reverse, trimStart, hdrop t h.2]
  rw [items, List.splitOn_eq_singleton hcomma, List.map_singleton, htrim,
    List.filter_cons_of_pos (by simpa using h.1)]
  rfl

/-! ### Brackets -/

theorem cutFirst?_append {c : Char} {a : List Char} (h : c ∉ a) (b : List Char) :
    cutFirst? c (a ++ c :: b) = some (a, b) := by
  induction a with
  | nil => rw [List.nil_append, cutFirst?, if_pos rfl]
  | cons d a ih =>
    have hd : d ≠ c := fun hd => h (hd ▸ List.mem_cons_self)
    rw [List.cons_append, cutFirst?, if_neg hd, ih fun hc => h (List.mem_cons_of_mem d hc)]
    rfl

theorem cutFirst?_eq_none {c : Char} {a : List Char} (h : c ∉ a) : cutFirst? c a = none := by
  induction a with
  | nil => rfl
  | cons d a ih =>
    have hd : d ≠ c := fun hd => h (hd ▸ List.mem_cons_self)
    rw [cutFirst?, if_neg hd, ih fun hc => h (List.mem_cons_of_mem d hc)]
    rfl

theorem dropFinal?_append (c : Char) (t : List Char) : dropFinal? c (t ++ [c]) = some t := by
  simp [dropFinal?]

theorem trimEnd_append {c : Char} (h : isBlank c = false) (t : List Char) :
    trimEnd (t ++ [c]) = t ++ [c] := by
  simp [trimEnd, h]

end Text

end WordMachine
