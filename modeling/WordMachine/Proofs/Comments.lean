import Mathlib.Data.List.Forall2
import Mathlib.Data.List.TakeWhile
import WordMachine.Proofs.Tokens

/-!
# Comments as white space

A comment might as well be white space. Here this is said without a scan. `Outside` tells which
places of a line are outside of all comments, and what the line is up to there when every comment
is replaced by spaces, one for each character, so that whatever is left keeps its column. What the
tokens of a text without comments are is told by `Laid`: its words, each with the column where it
begins.

## How the scan meets this

On either side of a comment a scan is in the middle of nothing, so behind the comment it is where
it would be behind as many spaces (`Outside.exists_scanFrom`). A line whose comments all end can
thus be scanned without them (`Blanked.scan_eq`), and a text without comments is scanned word by
word (`Laid.scanFrom_eq`). Any line has a furthest place outside of comments. There the line ends,
or a comment begins that runs to the end, or one between slashes that has no end (`exists_outside`),
and in this last case there are no tokens.

## Main results

* `Token.scan_eq_error_iff`: the lines that are refused
* `Token.scan_eq_ok_iff`: the tokens of all other lines
* `Token.scan_comments`: both, and what follows for each token
-/

namespace WordMachine

namespace Assembly

namespace Token

/-- Whether a character begins a comment. -/
def isMark (c : Char) : Bool := c == '#' || c == '/' || c == '\''

/-- So many spaces. -/
def spaces (n : Nat) : List Char := List.replicate n ' '

/-- The text leads to `rest` without a comment left open, and in front of it stands `out` if each
comment is replaced by spaces. An inline comment reaches to the next slash, and a commented word to
the next white space or the end. -/
inductive Outside : List Char → List Char → List Char → Prop
  | here (rest : List Char) : Outside rest [] rest
  | plain {c : Char} {t out rest : List Char} (hc : isMark c = false) (h : Outside t out rest) :
    Outside (c :: t) (c :: out) rest
  | inline {body t out rest : List Char} (hbody : '/' ∉ body) (h : Outside t out rest) :
    Outside ('/' :: (body ++ '/' :: t)) (spaces (body.length + 2) ++ out) rest
  | word {body t out rest : List Char} (hbody : ∀ c ∈ body, Text.isBlank c = false)
    (hend : ∀ c ∈ t.head?, Text.isBlank c = true) (h : Outside t out rest) :
    Outside ('\'' :: (body ++ t)) (spaces (body.length + 1) ++ out) rest

/-- The second text is the first one with its comments replaced by spaces. All of them end, if only
with the line. -/
inductive Blanked : List Char → List Char → Prop
  | closed {t out : List Char} (h : Outside t out []) : Blanked t out
  | line {t front rest : List Char} (h : Outside t front ('#' :: rest)) :
    Blanked t (front ++ spaces (rest.length + 1))

/-- The second text is the first one with some of its characters replaced by spaces. -/
def Covered (t out : List Char) : Prop := List.Forall₂ (fun c d => d = c ∨ d = ' ') t out

/-- The tokens of a line that are the words of a text from a column on. -/
inductive Laid (line : Nat) : Nat → List Char → List Token → Prop
  | nil (col : Nat) : Laid line col [] []
  | blank {col : Nat} {c : Char} {t : List Char} {tokens : List Token}
    (hc : Text.isBlank c = true) (h : Laid line (col + 1) t tokens) : Laid line col (c :: t) tokens
  | word {col : Nat} {w t : List Char} {tokens : List Token} (hw : Text.IsWord w)
    (hend : ∀ c ∈ t.head?, Text.isBlank c = true) (h : Laid line (col + w.length) t tokens) :
    Laid line col (w ++ t) (⟨⟨line, col⟩, w⟩ :: tokens)

variable {line col : Nat} {found : List Token} {state : Scanning} {t out front rest : List Char}
  {tokens : List Token}

theorem isPlain_eq_true_iff {c : Char} :
    isPlain c = true ↔ Text.isBlank c = false ∧ isMark c = false := by
  simp [isPlain, isMark, and_assoc]

theorem isMark_eq_false_iff {c : Char} : isMark c = false ↔ c ≠ '#' ∧ c ≠ '/' ∧ c ≠ '\'' := by
  simp [isMark, and_assoc]

theorem isMark_of_isBlank {c : Char} (h : Text.isBlank c = true) : isMark c = false := by
  rw [isMark_eq_false_iff]
  refine ⟨?_, ?_, ?_⟩ <;> rintro rfl <;> exact absurd h (by decide)

@[simp] theorem length_spaces (n : Nat) : (spaces n).length = n := List.length_replicate

theorem isMark_of_mem_spaces {n : Nat} {c : Char} (h : c ∈ spaces n) : isMark c = false := by
  rw [List.eq_of_mem_replicate h]
  rfl

/-! ### The end of what is under way -/

/-- White space and the end of the line end whatever is under way but a comment between slashes. -/
theorem scanFrom_of_head (hstate : state.isOpen = true ∨ state = .word)
    (hhead : ∀ c ∈ t.head?, Text.isBlank c = true) :
    scanFrom line col found state t = scanFrom line col (state.flush line found) .gap t := by
  cases t with
  | nil =>
    rcases state with _ | ⟨start, seen⟩ | ⟨start, fromSlash⟩ | _ <;>
      simp_all [scanFrom, Scanning.flush, Scanning.isOpen]
  | cons c t =>
    have hc := hhead c rfl
    obtain ⟨hhash, hslash, hquote⟩ := isMark_eq_false_iff.mp (isMark_of_isBlank hc)
    rcases state with _ | ⟨start, seen⟩ | ⟨start, fromSlash⟩ | _ <;>
      simp_all [scanFrom, Scanning.next, Scanning.flush, Scanning.isOpen]

theorem scanFrom_gap_blank {c : Char} (hc : Text.isBlank c = true) :
    scanFrom line col found .gap (c :: t) = scanFrom line (col + 1) found .gap t := by
  obtain ⟨hhash, hslash, hquote⟩ := isMark_eq_false_iff.mp (isMark_of_isBlank hc)
  simp [scanFrom, Scanning.next, Scanning.flush, hhash, hslash, hquote, hc]

theorem scanFrom_blank {c : Char} (hstate : state.isOpen = true) (hc : Text.isBlank c = true) :
    scanFrom line col found state (c :: t) =
      scanFrom line (col + 1) (state.flush line found) .gap t := by
  rw [scanFrom_of_head (.inl hstate) (by simpa using hc), scanFrom_gap_blank hc]

theorem scanFrom_gap_spaces (n : Nat) :
    scanFrom line col found .gap (spaces n ++ t) = scanFrom line (col + n) found .gap t := by
  induction n generalizing col with
  | zero => rfl
  | succ n ih =>
    have hspace : Text.isBlank ' ' = true := by decide
    rw [spaces, List.replicate_succ, List.cons_append, scanFrom_gap_blank hspace, ← spaces, ih,
      Nat.add_assoc, Nat.add_comm 1]

theorem scanFrom_spaces (hstate : state.isOpen = true) (n : Nat) :
    scanFrom line col found state (spaces (n + 1) ++ t) =
      scanFrom line (col + (n + 1)) (state.flush line found) .gap t := by
  have hspace : Text.isBlank ' ' = true := by decide
  rw [scanFrom_of_head (.inl hstate) (by simpa [spaces, List.replicate_succ] using hspace),
    scanFrom_gap_spaces]

/-! ### One comment -/

theorem scanFrom_hash (hstate : state.isOpen = true) :
    scanFrom line col found state ('#' :: rest) = .ok (state.flush line found).reverse := by
  simp [scanFrom, hstate]

theorem scanFrom_slash (hstate : state.isOpen = true) :
    scanFrom line col found state ('/' :: rest) =
      scanFrom line (col + 1) (state.flush line found) (.inline col ('/' :: rest)) rest := by
  rcases state with _ | ⟨start, seen⟩ | ⟨start, fromSlash⟩ | _ <;>
    simp_all [scanFrom, Scanning.next, Scanning.isOpen]

theorem scanFrom_quote (hstate : state.isOpen = true) :
    scanFrom line col found state ('\'' :: rest) =
      scanFrom line (col + 1) (state.flush line found) .word rest := by
  rcases state with _ | ⟨start, seen⟩ | ⟨start, fromSlash⟩ | _ <;>
    simp_all [scanFrom, Scanning.next, Scanning.isOpen]

/-- Between slashes nothing is looked at. -/
theorem scanFrom_inside {start : Nat} {fromSlash body : List Char} (hbody : '/' ∉ body) :
    scanFrom line col found (.inline start fromSlash) (body ++ t) =
      scanFrom line (col + body.length) found (.inline start fromSlash) t := by
  induction body generalizing col with
  | nil => rfl
  | cons c body ih =>
    rw [List.mem_cons, not_or] at hbody
    rw [List.cons_append, scanFrom]
    simp only [Scanning.isOpen, Bool.false_and, Bool.false_eq_true, if_false, Scanning.next,
      if_neg (Ne.symm hbody.1), Scanning.flush]
    rw [ih hbody.2, List.length_cons, Nat.add_assoc, Nat.add_comm 1]

/-- Nor is anything of a commented word. -/
theorem scanFrom_commented {body : List Char} (hbody : ∀ c ∈ body, Text.isBlank c = false) :
    scanFrom line col found .word (body ++ t) =
      scanFrom line (col + body.length) found .word t := by
  induction body generalizing col with
  | nil => rfl
  | cons c body ih =>
    rw [List.forall_mem_cons] at hbody
    rw [List.cons_append, scanFrom]
    simp only [Scanning.isOpen, Bool.false_and, Bool.false_eq_true, if_false, Scanning.next,
      hbody.1, Scanning.flush]
    rw [ih hbody.2, List.length_cons, Nat.add_assoc, Nat.add_comm 1]

theorem scanFrom_inline {body : List Char} (hstate : state.isOpen = true) (hbody : '/' ∉ body) :
    scanFrom line col found state ('/' :: (body ++ '/' :: t)) =
      scanFrom line (col + (body.length + 2)) (state.flush line found) .gap t := by
  rw [scanFrom_slash hstate, scanFrom_inside hbody, scanFrom]
  simp only [Scanning.isOpen, Bool.false_and, Bool.false_eq_true, if_false, Scanning.next, if_true,
    Scanning.flush]
  congr 1
  omega

theorem scanFrom_word {body : List Char} (hstate : state.isOpen = true)
    (hbody : ∀ c ∈ body, Text.isBlank c = false) (hend : ∀ c ∈ t.head?, Text.isBlank c = true) :
    scanFrom line col found state ('\'' :: (body ++ t)) =
      scanFrom line (col + (body.length + 1)) (state.flush line found) .gap t := by
  rw [scanFrom_quote hstate, scanFrom_commented hbody, scanFrom_of_head (.inr rfl) hend,
    Nat.add_assoc, Nat.add_comm 1]
  rfl

/-! ### All comments -/

theorem isOpen_gap : Scanning.gap.isOpen = true := rfl

/-- A character that begins no comment is stepped over, whatever follows it. -/
theorem exists_scanFrom_cons {c : Char} (hstate : state.isOpen = true) (hc : isMark c = false) :
    ∃ found' state', Scanning.isOpen state' = true ∧ ∀ t,
      scanFrom line col found state (c :: t) = scanFrom line (col + 1) found' state' t := by
  cases hblank : Text.isBlank c with
  | true => exact ⟨_, _, rfl, fun t => scanFrom_blank hstate hblank⟩
  | false =>
    have hplain := isPlain_eq_true_iff.mpr ⟨hblank, hc⟩
    rcases state with _ | ⟨start, seen⟩ | ⟨start, fromSlash⟩ | _
    case gap =>
      exact ⟨found, .token col [c], rfl, fun t => by
        simp [scanFrom, ne_mark_of_plain hplain, next_gap_of_plain hplain]⟩
    case token =>
      exact ⟨found, .token start (c :: seen), rfl, fun t => by
        simp [scanFrom, ne_mark_of_plain hplain, next_token_of_plain hplain]⟩
    all_goals cases hstate

/-- A place outside of comments is reached by a scan just as if there were no comments before it. -/
theorem Outside.exists_scanFrom (h : Outside t out rest) (hstate : state.isOpen = true) :
    ∃ found' state', Scanning.isOpen state' = true ∧
      scanFrom line col found state t = scanFrom line (col + out.length) found' state' rest ∧
      ∀ more, scanFrom line col found state (out ++ more) =
        scanFrom line (col + out.length) found' state' more := by
  -- A token may be under way where the text begins, so the state is any open one. Behind a comment
  -- it is a gap.
  induction h generalizing col found state with
  | here rest => exact ⟨found, state, hstate, rfl, fun more => rfl⟩
  | plain hc h ih =>
    obtain ⟨found₁, state₁, hopen₁, hcons⟩ := exists_scanFrom_cons hstate hc
    obtain ⟨found₂, state₂, hopen₂, ht, hout⟩ := ih hopen₁
    refine ⟨found₂, state₂, hopen₂, ?_, fun more => ?_⟩
    · rw [hcons, ht, List.length_cons, Nat.add_assoc, Nat.add_comm 1]
    · rw [List.cons_append, hcons, hout, List.length_cons, Nat.add_assoc, Nat.add_comm 1]
  | @inline body t out rest hbody h ih =>
    obtain ⟨found', state', hopen, ht, hout⟩ := ih isOpen_gap
    refine ⟨found', state', hopen, ?_, fun more => ?_⟩
    · rw [scanFrom_inline hstate hbody, ht, List.length_append, length_spaces, Nat.add_assoc]
    · rw [List.append_assoc, scanFrom_spaces hstate, hout, List.length_append, length_spaces,
        Nat.add_assoc]
  | @word body t out rest hbody hend h ih =>
    obtain ⟨found', state', hopen, ht, hout⟩ := ih isOpen_gap
    refine ⟨found', state', hopen, ?_, fun more => ?_⟩
    · rw [scanFrom_word hstate hbody hend, ht, List.length_append, length_spaces, Nat.add_assoc]
    · rw [List.append_assoc, scanFrom_spaces hstate, hout, List.length_append, length_spaces,
        Nat.add_assoc]

/-- **Comments might as well be white space.** -/
theorem Blanked.scan_eq (h : Blanked t out) : scan line t = scan line out := by
  cases h with
  | closed h =>
    obtain ⟨found', state', hopen, ht, hout⟩ := h.exists_scanFrom isOpen_gap
    rw [scan, ht, scan, ← List.append_nil out, hout, List.append_nil]
  | line h =>
    obtain ⟨found', state', hopen, ht, hout⟩ := h.exists_scanFrom isOpen_gap
    rw [scan, ht, scan, hout, scanFrom_hash hopen, ← List.append_nil (spaces _),
      scanFrom_spaces hopen]
    rfl

/-- A comment between slashes without an end is all that a line is refused for. -/
theorem Outside.scan_eq_error (h : Outside t front ('/' :: rest)) (hrest : '/' ∉ rest) :
    scan line t = .error ⟨⟨line, front.length + 1⟩,
      .malformed (Text.trimEnd ('/' :: rest)) .openComment⟩ := by
  obtain ⟨found', state', hopen, ht, -⟩ := h.exists_scanFrom isOpen_gap
  rw [scan, ht, scanFrom_slash hopen, ← List.append_nil rest, scanFrom_inside hrest, scanFrom,
    List.append_nil, Nat.add_comm 1]

theorem exists_commented (t : List Char) : ∃ body rest, t = body ++ rest ∧
    (∀ c ∈ body, Text.isBlank c = false) ∧ ∀ c ∈ rest.head?, Text.isBlank c = true := by
  refine ⟨t.takeWhile (!Text.isBlank ·), t.dropWhile (!Text.isBlank ·),
    (List.takeWhile_append_dropWhile).symm, fun c hc => ?_, fun c hc => ?_⟩
  · simpa using List.mem_takeWhile_imp hc
  · simpa [Option.mem_def.mp hc] using List.head?_dropWhile_not (!Text.isBlank ·) t

/-- From anywhere on a line, one gets to its end, to a comment that runs to there or to a comment
that should end but does not. -/
theorem exists_outside (t : List Char) : ∃ front rest, Outside t front rest ∧
    (rest = [] ∨ (∃ body, rest = '#' :: body) ∨ ∃ body, rest = '/' :: body ∧ '/' ∉ body) := by
  match t with
  | [] => exact ⟨[], [], .here [], .inl rfl⟩
  | c :: t =>
    cases hc : isMark c with
    | false =>
      obtain ⟨front, rest, h, hrest⟩ := exists_outside t
      exact ⟨c :: front, rest, .plain hc h, hrest⟩
    | true =>
      simp only [isMark, Bool.or_eq_true, beq_iff_eq] at hc
      obtain (rfl | rfl) | rfl := hc
      · exact ⟨[], _, .here _, .inr (.inl ⟨t, rfl⟩)⟩
      · by_cases hslash : '/' ∈ t
        · obtain ⟨body, u, ht, hbody⟩ := List.eq_append_cons_of_mem hslash
          have hshort : u.length ≤ t.length := by
            rw [ht, List.length_append, List.length_cons]
            omega
          obtain ⟨front, rest, h, hrest⟩ := exists_outside u
          rw [ht]
          exact ⟨_, rest, .inline hbody h, hrest⟩
        · exact ⟨[], _, .here _, .inr (.inr ⟨t, rfl, hslash⟩)⟩
      · obtain ⟨body, u, ht, hbody, hend⟩ := exists_commented t
        have hshort : u.length ≤ t.length := by
          rw [ht, List.length_append]
          omega
        obtain ⟨front, rest, h, hrest⟩ := exists_outside u
        rw [ht]
        exact ⟨_, rest, .word hbody hend h, hrest⟩
termination_by t.length
decreasing_by
  all_goals
    rw [List.length_cons]
    omega

/-! ### What stands where -/

theorem covered_spaces (t : List Char) : Covered t (spaces t.length) := by
  induction t with
  | nil => exact .nil
  | cons c t ih => exact .cons (.inr rfl) ih

theorem Covered.append {t₁ t₂ out₁ out₂ : List Char} (h₁ : Covered t₁ out₁) (h₂ : Covered t₂ out₂) :
    Covered (t₁ ++ t₂) (out₁ ++ out₂) :=
  List.rel_append h₁ h₂

theorem Covered.eq_of_not_mem (h : Covered t out) (hspace : ' ' ∉ out) : t = out := by
  induction h with
  | nil => rfl
  | cons hd h ih =>
    rw [List.mem_cons, not_or] at hspace
    rw [hd.resolve_right (Ne.symm hspace.1), ih hspace.2]

/-- What stands somewhere behind the replacement stood there before it, spaces apart. -/
theorem Covered.prefix_drop {w : List Char} {n : Nat} (h : Covered t out) (hspace : ' ' ∉ w)
    (hw : w <+: out.drop n) : w <+: t.drop n := by
  obtain ⟨rest, hrest⟩ := hw
  have hdrop : Covered (t.drop n) (w ++ rest) := hrest ▸ List.forall₂_drop n h
  have htake : Covered ((t.drop n).take w.length) w := List.forall₂_take_append _ w rest hdrop
  rw [← htake.eq_of_not_mem hspace]
  exact List.take_prefix _ _

/-- Comments are replaced character by character. -/
theorem Outside.exists_covered (h : Outside t out rest) :
    ∃ front, t = front ++ rest ∧ Covered front out := by
  induction h with
  | here rest => exact ⟨[], rfl, .nil⟩
  | @plain c t out rest hc h ih =>
    obtain ⟨front, rfl, hfront⟩ := ih
    exact ⟨c :: front, rfl, .cons (.inl rfl) hfront⟩
  | @inline body t out rest hbody h ih =>
    obtain ⟨front, rfl, hfront⟩ := ih
    refine ⟨('/' :: (body ++ ['/'])) ++ front, by simp, .append ?_ hfront⟩
    rw [show body.length + 2 = ('/' :: (body ++ ['/'])).length by simp]
    exact covered_spaces _
  | @word body t out rest hbody hend h ih =>
    obtain ⟨front, rfl, hfront⟩ := ih
    exact ⟨('\'' :: body) ++ front, by simp, .append (covered_spaces ('\'' :: body)) hfront⟩

theorem Blanked.covered (h : Blanked t out) : Covered t out := by
  cases h with
  | closed h =>
    obtain ⟨front, rfl, hfront⟩ := h.exists_covered
    rwa [List.append_nil]
  | @line front rest h =>
    obtain ⟨u, rfl, hu⟩ := h.exists_covered
    exact hu.append (covered_spaces ('#' :: rest))

/-- No comment is left. -/
theorem Outside.isMark_eq_false (h : Outside t out rest) : ∀ c ∈ out, isMark c = false := by
  induction h with
  | here rest => simp
  | plain hc h ih => exact List.forall_mem_cons.mpr ⟨hc, ih⟩
  | inline hbody h ih => exact List.forall_mem_append.mpr ⟨fun c => isMark_of_mem_spaces, ih⟩
  | word hbody hend h ih => exact List.forall_mem_append.mpr ⟨fun c => isMark_of_mem_spaces, ih⟩

theorem Blanked.isMark_eq_false (h : Blanked t out) : ∀ c ∈ out, isMark c = false := by
  cases h with
  | closed h => exact h.isMark_eq_false
  | line h =>
    exact List.forall_mem_append.mpr ⟨h.isMark_eq_false, fun c => isMark_of_mem_spaces⟩

/-! ### Words of a text without comments -/

theorem exists_laid (line col : Nat) (t : List Char) : ∃ tokens, Laid line col t tokens := by
  match t with
  | [] => exact ⟨[], .nil col⟩
  | c :: t =>
    cases hc : Text.isBlank c with
    | true =>
      obtain ⟨tokens, h⟩ := exists_laid line (col + 1) t
      exact ⟨tokens, .blank hc h⟩
    | false =>
      obtain ⟨body, u, ht, hbody, hend⟩ := exists_commented t
      have hshort : u.length ≤ t.length := by
        rw [ht, List.length_append]
        omega
      obtain ⟨tokens, h⟩ := exists_laid line (col + (c :: body).length) u
      have hword : Text.IsWord (c :: body) :=
        ⟨List.cons_ne_nil c body, List.forall_mem_cons.mpr ⟨hc, hbody⟩⟩
      rw [ht]
      exact ⟨_, .word hword hend h⟩
termination_by t.length
decreasing_by
  all_goals
    rw [List.length_cons]
    omega

/-- A scan finds the words of a text without comments. -/
theorem Laid.scanFrom_eq (h : Laid line col t tokens) (ht : ∀ c ∈ t, isMark c = false) :
    scanFrom line col found .gap t = .ok (found.reverse ++ tokens) := by
  induction h generalizing found with
  | nil col => simp [scanFrom, Scanning.flush]
  | blank hc h ih =>
    rw [scanFrom_gap_blank hc, ih (List.forall_mem_cons.mp ht).2]
  | @word col w t tokens hw hend h ih =>
    obtain ⟨hmark, ht⟩ := List.forall_mem_append.mp ht
    have hplain : ∀ c ∈ w, isPlain c = true := fun c hc =>
      isPlain_eq_true_iff.mpr ⟨hw.2 c hc, hmark c hc⟩
    rw [scanFrom_gap hw.1 hplain, scanFrom_of_head (.inl rfl) hend, ih ht]
    simp [Scanning.flush]

theorem Laid.map_val (h : Laid line col t tokens) : tokens.map (·.val) = Text.words t := by
  induction h with
  | nil col => rfl
  | blank hc h ih => rw [ih, Text.words_cons_of_blank hc]
  | @word col w t tokens hw hend h ih =>
    rw [List.map_cons, ih]
    cases t with
    | nil => rw [List.append_nil, hw.words_eq]; rfl
    | cons c t =>
      have hc := hend c rfl
      rw [Text.words_append_cons hc, hw.words_eq, Text.words_cons_of_blank hc]
      rfl

/-- Each word stands at its column. -/
theorem Laid.stands (h : Laid line col t tokens) : ∀ tk ∈ tokens,
    tk.loc.line = line ∧ col ≤ tk.loc.col ∧ tk.val <+: t.drop (tk.loc.col - col) := by
  induction h with
  | nil col => simp
  | @blank col c t tokens hc h ih =>
    intro tk htk
    obtain ⟨hline, hcol, hstands⟩ := ih tk htk
    refine ⟨hline, by omega, ?_⟩
    rw [show tk.loc.col - col = tk.loc.col - (col + 1) + 1 by omega, List.drop_succ_cons]
    exact hstands
  | @word col w t tokens hw hend h ih =>
    rw [List.forall_mem_cons]
    refine ⟨⟨rfl, le_rfl, ?_⟩, fun tk htk => ?_⟩
    · simp
    · obtain ⟨hline, hcol, hstands⟩ := ih tk htk
      refine ⟨hline, by omega, ?_⟩
      rw [show tk.loc.col - col = w.length + (tk.loc.col - (col + w.length)) by omega,
        ← List.drop_drop, List.drop_left]
      exact hstands

/-- The words come in the order of their columns. -/
theorem Laid.pairwise (h : Laid line col t tokens) :
    tokens.Pairwise (·.loc.col < ·.loc.col) := by
  induction h with
  | nil col => exact .nil
  | blank hc h ih => exact ih
  | @word col w t tokens hw hend h ih =>
    refine List.pairwise_cons.mpr ⟨fun tk htk => ?_, ih⟩
    have hpos := List.length_pos_iff.mpr hw.1
    have hcol := (h.stands tk htk).2.1
    show col < tk.loc.col
    omega

/-! ### The scan of a line -/

/-- A comment that has no end stops a scan, and without one there are tokens. -/
theorem scan_cases (line : Nat) (t : List Char) :
    (∃ front rest, Outside t front ('/' :: rest) ∧ '/' ∉ rest) ∨
      ∃ out tokens, Blanked t out ∧ Laid line 1 out tokens := by
  obtain ⟨front, rest, h, hrest⟩ := exists_outside t
  obtain rfl | ⟨body, rfl⟩ | ⟨body, rfl, hbody⟩ := hrest
  · obtain ⟨tokens, htokens⟩ := exists_laid line 1 front
    exact .inr ⟨front, tokens, .closed h, htokens⟩
  · obtain ⟨tokens, htokens⟩ := exists_laid line 1 (front ++ spaces (body.length + 1))
    exact .inr ⟨_, tokens, .line h, htokens⟩
  · exact .inl ⟨front, body, h, hbody⟩

theorem scan_eq_ok (hout : Blanked t out) (hlaid : Laid line 1 out tokens) :
    scan line t = .ok tokens := by
  rw [hout.scan_eq, scan, hlaid.scanFrom_eq hout.isMark_eq_false]
  rfl

/-- **The lines that are refused.** -/
theorem scan_eq_error_iff {e : Located LineError} : scan line t = .error e ↔
    ∃ front rest, Outside t front ('/' :: rest) ∧ '/' ∉ rest ∧
      e = ⟨⟨line, front.length + 1⟩, .malformed (Text.trimEnd ('/' :: rest)) .openComment⟩ := by
  constructor
  · intro h
    obtain ⟨front, rest, hopen, hrest⟩ | ⟨out, tokens, hout, hlaid⟩ := scan_cases line t
    · rw [hopen.scan_eq_error hrest, Except.error.injEq] at h
      exact ⟨front, rest, hopen, hrest, h.symm⟩
    · rw [scan_eq_ok hout hlaid] at h
      cases h
  · rintro ⟨front, rest, hopen, hrest, rfl⟩
    exact hopen.scan_eq_error hrest

/-- **The tokens of all other lines.** -/
theorem scan_eq_ok_iff :
    scan line t = .ok tokens ↔ ∃ out, Blanked t out ∧ Laid line 1 out tokens := by
  constructor
  · intro h
    obtain ⟨front, rest, hopen, hrest⟩ | ⟨out, tokens', hout, hlaid⟩ := scan_cases line t
    · rw [hopen.scan_eq_error hrest] at h
      cases h
    · rw [scan_eq_ok hout hlaid, Except.ok.injEq] at h
      exact ⟨out, hout, h ▸ hlaid⟩
  · rintro ⟨out, hout, hlaid⟩
    exact scan_eq_ok hout hlaid

/-- **Cutting a line into tokens is replacing its comments by white space.** A line is refused
exactly if a comment between slashes begins on it, outside of any other comment, that has no end.
Of any other line the tokens are the words that stand on it without its comments, each with the
place where it stands. No token is empty, and in none there is white space or the mark of a
comment. So the tokens with spaces between them are the tokens of a line again. -/
theorem scan_comments (line : Nat) (t : List Char) :
    (∀ e, scan line t = .error e ↔
      ∃ front rest, Outside t front ('/' :: rest) ∧ '/' ∉ rest ∧
        e = ⟨⟨line, front.length + 1⟩,
          .malformed (Text.trimEnd ('/' :: rest)) .openComment⟩) ∧
    (∀ tokens, scan line t = .ok tokens ↔ ∃ out, Blanked t out ∧ Laid line 1 out tokens) ∧
    ∀ tokens, scan line t = .ok tokens →
      (∃ out, Blanked t out ∧ Covered t out ∧ tokens.map (·.val) = Text.words out) ∧
      tokens.Pairwise (·.loc.col < ·.loc.col) ∧
      (∀ tk ∈ tokens, tk.loc.line = line ∧ 1 ≤ tk.loc.col ∧
        tk.val <+: t.drop (tk.loc.col - 1) ∧ tk.val ≠ [] ∧
        ∀ c ∈ tk.val, Text.isBlank c = false ∧ isMark c = false) ∧
      ∀ again, ∃ tokens', scan again (Text.unwords (tokens.map (·.val))) = .ok tokens' ∧
        tokens'.map (·.val) = tokens.map (·.val) := by
  refine ⟨fun e => scan_eq_error_iff, fun tokens => scan_eq_ok_iff, fun tokens h => ?_⟩
  have hword := isWord_of_scan h
  obtain ⟨out, hout, hlaid⟩ := scan_eq_ok_iff.mp h
  have hmark : ∀ tk ∈ tokens, ∀ c ∈ tk.val, isMark c = false := fun tk htk c hc =>
    hout.isMark_eq_false c (List.mem_of_mem_drop ((hlaid.stands tk htk).2.2.subset hc))
  refine ⟨⟨out, hout, hout.covered, hlaid.map_val⟩, hlaid.pairwise, fun tk htk => ?_,
    fun again => ⟨row again 1 (tokens.map (·.val)), scan_unwords ?_ ?_, map_val_row _ _ _⟩⟩
  · obtain ⟨hline, hcol, hstands⟩ := hlaid.stands tk htk
    have hspace : ' ' ∉ tk.val := fun hmem => absurd ((hword tk htk).2 ' ' hmem) (by decide)
    exact ⟨hline, hcol, hout.covered.prefix_drop hspace hstands, (hword tk htk).1,
      fun c hc => ⟨(hword tk htk).2 c hc, hmark tk htk c hc⟩⟩
  · exact List.forall_mem_map.mpr fun tk htk => (hword tk htk).1
  · exact List.forall_mem_map.mpr fun tk htk c hc =>
      isPlain_eq_true_iff.mpr ⟨(hword tk htk).2 c hc, hmark tk htk c hc⟩

end Token

end Assembly

end WordMachine
