import WordMachine.Assembly.Token
import WordMachine.Proofs.Pieces

/-!
# Tokens of plain text

A scan changes its course at white space and at the marks of comments. A text without any of these
is a token wherever it stands by itself, and a line made of such texts with single spaces between
them is cut at the spaces and nowhere else. Instructions are written out as such lines. In whatever
line a token is found, it is a word.

## Main results

* `Token.scan_unwords`: the tokens of a line of plain texts are those texts
* `Token.isWord_of_scan`: all tokens of a line are words
-/

namespace WordMachine

namespace Assembly

namespace Token

/-- Whether a character stands in a token wherever it occurs outside of comments. -/
def isPlain (c : Char) : Bool := !(Text.isBlank c || c == '#' || c == '/' || c == '\'')

/-- Tokens one behind another, a space between each and the next. -/
def row (line col : Nat) : List (List Char) → List Token
  | [] => []
  | t :: ts => ⟨⟨line, col⟩, t⟩ :: row line (col + t.length + 1) ts

@[simp] theorem map_val_row (line col : Nat) (ts : List (List Char)) :
    (row line col ts).map (·.val) = ts := by
  induction ts generalizing col with
  | nil => rfl
  | cons t ts ih => rw [row, List.map_cons, ih]

/-! ### Steps of a scan -/

variable {line col start : Nat} {found : List Token} {seen rest t : List Char}

theorem next_gap_of_plain {c : Char} (h : isPlain c = true) :
    Scanning.next col c rest .gap = .token col [c] := by
  simp only [isPlain, Bool.not_eq_true', Bool.or_eq_false_iff, beq_eq_false_iff_ne] at h
  obtain ⟨⟨⟨hblank, -⟩, hslash⟩, hquote⟩ := h
  simp [Scanning.next, hslash, hquote, hblank]

theorem next_token_of_plain {c : Char} (h : isPlain c = true) :
    Scanning.next col c rest (.token start seen) = .token start (c :: seen) := by
  simp only [isPlain, Bool.not_eq_true', Bool.or_eq_false_iff, beq_eq_false_iff_ne] at h
  obtain ⟨⟨⟨hblank, -⟩, hslash⟩, hquote⟩ := h
  simp [Scanning.next, hslash, hquote, hblank]

theorem ne_mark_of_plain {c : Char} (h : isPlain c = true) : (c == '#') = false := by
  simp only [isPlain, Bool.not_eq_true', Bool.or_eq_false_iff] at h
  exact h.1.1.2

/-! ### Whole texts -/

/-- A token under way takes in what is plain. -/
theorem scanFrom_token (ht : ∀ c ∈ t, isPlain c = true) :
    scanFrom line col found (.token start seen) (t ++ rest) =
      scanFrom line (col + t.length) found (.token start (t.reverse ++ seen)) rest := by
  induction t generalizing col seen with
  | nil => rfl
  | cons c t ih =>
    have hc := ht c List.mem_cons_self
    rw [List.cons_append, scanFrom, ne_mark_of_plain hc]
    simp only [Bool.and_false, Bool.false_eq_true, if_false, next_token_of_plain hc]
    rw [ih fun d hd => ht d (List.mem_cons_of_mem c hd), List.length_cons, List.reverse_cons,
      List.append_assoc, List.singleton_append, Nat.add_assoc, Nat.add_comm 1]

/-- A plain text in front of the rest of a line is begun as a token. -/
theorem scanFrom_gap (hne : t ≠ []) (ht : ∀ c ∈ t, isPlain c = true) :
    scanFrom line col found .gap (t ++ rest) =
      scanFrom line (col + t.length) found (.token col t.reverse) rest := by
  cases t with
  | nil => exact absurd rfl hne
  | cons c t =>
    have hc := ht c List.mem_cons_self
    rw [List.cons_append, scanFrom, ne_mark_of_plain hc]
    simp only [Bool.and_false, Bool.false_eq_true, if_false, next_gap_of_plain hc]
    rw [scanFrom_token fun d hd => ht d (List.mem_cons_of_mem c hd), List.length_cons,
      List.reverse_cons, Nat.add_assoc, Nat.add_comm 1]

theorem scanFrom_unwords {ts : List (List Char)} (hne : ∀ t ∈ ts, t ≠ [])
    (ht : ∀ t ∈ ts, ∀ c ∈ t, isPlain c = true) :
    scanFrom line col found .gap (Text.unwords ts) = .ok (found.reverse ++ row line col ts) := by
  induction ts generalizing col found with
  | nil => simp [Text.unwords, List.intercalate, scanFrom, Scanning.flush, row]
  | cons t ts ih =>
    have hnet := hne t List.mem_cons_self
    have htt := ht t List.mem_cons_self
    cases ts with
    | nil =>
      have hone : Text.unwords [t] = t ++ [] := by simp [Text.unwords, List.intercalate]
      rw [hone, scanFrom_gap hnet htt]
      simp [scanFrom, Scanning.flush, row]
    | cons u us =>
      have hcons : Text.unwords (t :: u :: us) = t ++ ' ' :: Text.unwords (u :: us) := by
        simp [Text.unwords, List.intercalate]
      rw [hcons, scanFrom_gap hnet htt, scanFrom]
      simp only [Scanning.isOpen, Scanning.next, Scanning.flush]
      have hspace : Text.isBlank ' ' = true := by decide
      simp only [hspace, show (' ' == '#') = false by decide, show ¬ (' ' = '/') by decide,
        show ¬ (' ' = '\'') by decide, Bool.and_false, Bool.false_eq_true, if_false, if_true,
        List.reverse_reverse]
      rw [ih (fun v hv => hne v (List.mem_cons_of_mem t hv))
        fun v hv => ht v (List.mem_cons_of_mem t hv)]
      simp [row]

/-- **Words with single spaces between them are the tokens of the line.** -/
theorem scan_unwords {ts : List (List Char)} (hne : ∀ t ∈ ts, t ≠ [])
    (ht : ∀ t ∈ ts, ∀ c ∈ t, isPlain c = true) :
    scan line (Text.unwords ts) = .ok (row line 1 ts) :=
  scanFrom_unwords hne ht

/-! ### Tokens are words -/

/-- A scan in the middle of a token has seen a word so far. -/
def Scanning.IsSound : Scanning → Prop
  | token _ seen => Text.IsWord seen
  | _ => True

theorem Scanning.isSound_next {state : Scanning} (h : state.IsSound) (col : Nat) (c : Char)
    (rest : List Char) : (state.next col c rest).IsSound := by
  rcases state with _ | ⟨start, seen⟩ | ⟨start, fromSlash⟩ | _
  case inline =>
    rw [next]
    split <;> trivial
  case word =>
    rw [next]
    split <;> trivial
  all_goals
    simp only [next]
    split
    · trivial
    split
    · trivial
    split
    · trivial
    · next hblank =>
      rw [Bool.not_eq_true] at hblank
      simp_all [IsSound, Text.IsWord]

theorem isWord_of_mem_flush {line : Nat} {found : List Token}
    (hfound : ∀ tk ∈ found, Text.IsWord tk.val) {state : Scanning} (h : state.IsSound) :
    ∀ tk ∈ state.flush line found, Text.IsWord tk.val := by
  rcases state with _ | ⟨start, seen⟩ | ⟨start, fromSlash⟩ | _
  case token =>
    rw [Scanning.flush, List.forall_mem_cons]
    refine ⟨⟨by simpa using h.1, fun c hc => h.2 c (List.mem_reverse.mp hc)⟩, hfound⟩
  all_goals exact hfound

theorem isWord_of_scanFrom {line col : Nat} {found : List Token} {state : Scanning} {t : List Char}
    {tokens : List Token} (hfound : ∀ tk ∈ found, Text.IsWord tk.val) (hstate : state.IsSound)
    (h : scanFrom line col found state t = .ok tokens) : ∀ tk ∈ tokens, Text.IsWord tk.val := by
  have hflush : ∀ tk ∈ (state.flush line found).reverse, Text.IsWord tk.val := fun tk htk =>
    isWord_of_mem_flush hfound hstate tk (List.mem_reverse.mp htk)
  induction t generalizing col found state with
  | nil =>
    cases state with
    | inline start fromSlash => cases h
    | _ =>
      cases h
      exact hflush
  | cons c rest ih =>
    rw [scanFrom] at h
    split at h
    · cases h
      exact hflush
    · have hnext := Scanning.isSound_next hstate col c rest
      refine ih ?_ hnext h fun tk htk => isWord_of_mem_flush ?_ hnext tk (List.mem_reverse.mp htk)
      all_goals
        split
        · exact hfound
        · exact isWord_of_mem_flush hfound hstate

/-- **All tokens of a line are words.** -/
theorem isWord_of_scan {line : Nat} {t : List Char} {tokens : List Token}
    (h : scan line t = .ok tokens) : ∀ tk ∈ tokens, Text.IsWord tk.val := by
  have hgap : Scanning.gap.IsSound := trivial
  exact isWord_of_scanFrom (by simp) hgap h

end Token

end Assembly

end WordMachine
