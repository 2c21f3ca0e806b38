import Mathlib.Data.List.Forall2
import WordMachine.Proofs.Failures

/-!
# Listings

A listing is written while the words are, but from the addresses that the first pass gave. Whether
the two belong together cannot be told from a single line of it. So a listing is compared with all
of the words at once: its lines *tile* them (`Entry.Tiles`) if each takes up where the one before
it has ended, an operation with the word that it shows, and a line of data with as many words as it
counts. Everything else that can be said about addresses follows from that.

Where a line of a listing comes from is another question. It is answered by a comparison with the
statements of the source, each together with its line (`Reading.sourced`). Labels are left out, as
they have no words.

## Main results

* `Entry.Tiles.split`: tiling lines up to some point tile the words up to there
* `Placed.entries_of_encodeFrom`: what the second pass lists
* `assemble_listing`: the listing of an assembled source
-/

namespace WordMachine

namespace Assembly

/-! ### Lines of a listing and the words they stand for -/

namespace Entry

/-- The number of words that a line of a listing stands for. -/
def size : Entry → Nat
  | header => 0
  | inst _ _ _ _ => 1
  | data _ words => words

/-- The number of words that lines of a listing stand for together. -/
def sizes : List Entry → Nat
  | [] => 0
  | e :: rest => e.size + sizes rest

/-- The address in front of a line of a listing. -/
def address? : Entry → Option Word
  | header => none
  | inst address _ _ _ => some address
  | data start _ => some start

/-- A line of a listing stands for words from an address on: an operation for the word that it
shows, a line of data for as many words as it counts. -/
def StandsFor (e : Entry) (n : Nat) (ws : List Word) : Prop :=
  match e with
  | header => False
  | inst address w _ _ => address = UInt16.ofNat n ∧ ws = [w]
  | data start words => start = UInt16.ofNat n ∧ ws.length = words

/-- Lines of a listing, from an address on, stand for words one behind another. -/
inductive Tiles : Nat → List Entry → List Word → Prop
  | nil (n : Nat) : Tiles n [] []
  | cons {n : Nat} {e : Entry} {es : List Entry} {us vs : List Word} :
      e.StandsFor n us → Tiles (n + us.length) es vs → Tiles n (e :: es) (us ++ vs)

@[simp] theorem sizes_nil : sizes [] = 0 := rfl

@[simp] theorem sizes_cons (e : Entry) (es : List Entry) : sizes (e :: es) = e.size + sizes es :=
  rfl

theorem StandsFor.length_eq {e : Entry} {n : Nat} {ws : List Word} (h : e.StandsFor n ws) :
    ws.length = e.size := by
  cases e with
  | header => exact h.elim
  | inst address w line text =>
    obtain ⟨-, rfl⟩ := h
    rfl
  | data start words => exact h.2

theorem StandsFor.address?_eq {e : Entry} {n : Nat} {ws : List Word} (h : e.StandsFor n ws) :
    e.address? = some (UInt16.ofNat n) := by
  cases e with
  | header => exact h.elim
  | inst address w line text => exact congrArg some h.1
  | data start words => exact congrArg some h.1

namespace Tiles

variable {n : Nat} {e : Entry} {es front back : List Entry} {ws : List Word}

/-- Lines that tile words stand for as many. -/
theorem sizes_eq (h : Tiles n es ws) : sizes es = ws.length := by
  induction h with
  | nil => rfl
  | cons he _ ih => rw [sizes_cons, ih, List.length_append, he.length_eq]

/-- Up to any point, the lines before it tile the words before it, and the lines behind it those
behind. -/
theorem split (h : Tiles n (front ++ back) ws) :
    ∃ us vs, ws = us ++ vs ∧ us.length = sizes front ∧ Tiles (n + sizes front) back vs := by
  induction front generalizing n ws with
  | nil => exact ⟨[], ws, rfl, rfl, h⟩
  | cons e front ih =>
    rcases h with - | ⟨he, h⟩
    obtain ⟨us, vs, rfl, hlength, hvs⟩ := ih h
    refine ⟨_, vs, (List.append_assoc ..).symm, ?_, ?_⟩
    · rw [List.length_append, hlength, he.length_eq, sizes_cons]
    · rw [sizes_cons, ← he.length_eq, ← Nat.add_assoc]
      exact hvs

theorem address?_of_split (h : Tiles n (front ++ e :: back) ws) :
    e.address? = some (UInt16.ofNat (n + sizes front)) := by
  obtain ⟨us, vs, -, -, hback⟩ := h.split
  rcases hback with - | ⟨he, -⟩
  exact he.address?_eq

/-- An operation that is listed among others is listed at the address where its word is. -/
theorem getElem?_of_split {address w : Word} {line : Nat} {text : List Char}
    (h : Tiles 0 (front ++ .inst address w line text :: back) ws) (hle : ws.length ≤ addressSpace) :
    ws[address.toNat]? = some w := by
  obtain ⟨us, vs, rfl, hlength, hback⟩ := h.split
  rcases hback with - | ⟨⟨rfl, rfl⟩, -⟩
  rw [Nat.zero_add, ← hlength]
  have hlt : us.length < 65536 := by
    rw [List.length_append, List.length_append, List.length_singleton, addressSpace] at hle
    omega
  rw [Word.toNat_ofNat_of_lt hlt, List.getElem?_append_right (Nat.le_refl _), Nat.sub_self]
  rfl

end Tiles

end Entry

/-! ### Statements and their lines -/

/-- A statement with the line of source that it is on. -/
structure Sourced where
  line : Nat
  text : List Char
  stmt : Statement

/-- Whether a statement has a line of its own in a listing. -/
def Sourced.isListed (s : Sourced) : Bool :=
  match s.stmt with
  | .label _ => false
  | _ => true

/-- The statements of a line, with that line. -/
def Reading.sourced (r : Reading) : List Sourced :=
  r.statements.map fun stmt => ⟨r.line, r.source, stmt.val⟩

/-- A line of a listing shows an operation together with its line of source, or the number of words
in a line of data. -/
def Entry.Shows (e : Entry) (s : Sourced) : Prop :=
  match s.stmt with
  | .label _ => False
  | .op _ => ∃ address word, e = .inst address word s.line s.text
  | .data items => ∃ start, e = .data start (Statement.data items).size

namespace Placed

open Statement (sizes locate)

/-- The statement of a unit, with its line. -/
def sourced (u : Placed) : Sourced := ⟨u.line, u.source, u.stmt.val⟩

theorem map_sourced_row (line : Nat) (source : List Char) (address : Nat)
    (stmts : List (Located Statement)) :
    (row line source address stmts).map (·.sourced) =
      stmts.map fun stmt => ⟨line, source, stmt.val⟩ := by
  induction stmts generalizing address with
  | nil => rfl
  | cons stmt rest ih => rw [row, List.map_cons, ih, List.map_cons, sourced]

/-- Units have the statements of their lines, with those lines. -/
theorem map_sourced_ofReadings (address : Nat) (rs : List Reading) :
    (ofReadings address rs).map (·.sourced) = rs.flatMap (·.sourced) := by
  induction rs generalizing address with
  | nil => rfl
  | cons r rest ih =>
    rw [ofReadings, List.map_append, ih, map_sourced_row, List.flatMap_cons, Reading.sourced]

variable {labels : LabelMap} {u : Placed} {us : List Placed} {ss : List Statement} {address : Nat}
  {ws : List Word}

/-- The lines that units have in a listing. -/
def entries (labels : LabelMap) (us : List Placed) : List Entry :=
  us.filterMap fun u => (u.emit labels).entry

/-- The second pass lists a statement that has words in a line that shows it and stands for these
words, unless it is a label. -/
theorem entry_of_encode (h : u.stmt.val.encode labels u.address = .ok ws) :
    u.sourced.isListed = false ∧ (u.emit labels).entry = none ∧ ws = [] ∨
      u.sourced.isListed = true ∧ ∃ e, (u.emit labels).entry = some e ∧
        e.Shows u.sourced ∧ e.StandsFor u.address ws := by
  obtain ⟨line, source, start, ⟨loc, stmt⟩⟩ := u
  cases stmt with
  | label name => exact Or.inl ⟨rfl, rfl, (Except.ok.inj h).symm⟩
  | data items =>
    have hshows := congrArg (Entry.data (UInt16.ofNat start)) (DataItem.length_encodeAll h)
    refine Or.inr ⟨rfl, .data (UInt16.ofNat start) ws.length, ?_, ⟨_, hshows⟩, rfl, rfl⟩
    rw [emit]
    dsimp only
    rw [DataItem.emitItems_of_encodeAll [] [] h]
    rfl
  | op o =>
    obtain ⟨w, hw, rfl⟩ := Statement.encode_op_eq_ok_iff.mp h
    refine Or.inr ⟨rfl, .inst (UInt16.ofNat start) w line source, ?_, ⟨_, _, rfl⟩, rfl, rfl⟩
    rw [emit]
    dsimp only at hw ⊢
    rw [hw]

/-- What the second pass lists tiles the words that it makes, and shows every statement but the
labels, in order. -/
theorem entries_of_encodeFrom (hplace : us.map (·.place) = locate address ss)
    (h : Statement.encodeFrom labels address ss = .ok ws) :
    Entry.Tiles address (entries labels us) ws ∧
      List.Forall₂ Entry.Shows (entries labels us)
        ((us.map (·.sourced)).filter (·.isListed)) := by
  induction ss generalizing us address ws with
  | nil =>
    obtain rfl := List.map_eq_nil_iff.mp hplace
    cases h
    exact ⟨.nil address, .nil⟩
  | cons s ss ih =>
    obtain ⟨u, us, rfl, hu, hus⟩ := List.map_eq_cons_iff.mp hplace
    obtain ⟨rfl, rfl⟩ := Prod.mk.inj hu
    obtain ⟨vs, hvs, rest, hrest, rfl⟩ := Statement.encodeFrom_cons_eq_ok_iff.mp h
    obtain ⟨htiles, hshows⟩ := ih hus hrest
    rw [← Statement.length_encode hvs] at htiles
    rw [entries, List.filterMap_cons, List.map_cons]
    rcases entry_of_encode hvs with ⟨hlisted, hentry, rfl⟩ | ⟨hlisted, e, hentry, hshow, hstand⟩
    · rw [hentry, List.filter_cons_of_neg (Bool.eq_false_iff.mp hlisted)]
      exact ⟨htiles, hshows⟩
    · rw [hentry, List.filter_cons_of_pos hlisted]
      exact ⟨.cons hstand htiles, .cons hshow hshows⟩

end Placed

/-! ### Assembled sources -/

/-- A program comes with a listing of all its units. -/
theorem listing_of_ok {source : List Char} {p : Program} (h : assemble? source = .ok p) :
    (assemble source).2 =
      .header :: Placed.entries p.labels (Placement.ofSource source).units.reverse := by
  unfold assemble? at h
  unfold assemble at h ⊢
  dsimp only at h ⊢
  split at h
  · next hfirst =>
    rw [if_pos hfirst]
    split at h
    · next hsecond =>
      rw [if_pos hsecond]
      cases h
      exact congrArg (Entry.header :: ·) List.filterMap_map
    · cases h
  · cases h

/-- None of the lines of an assembled source is refused. -/
theorem answer_of_ok {source : List Char} {p : Program} (h : assemble? source = .ok p)
    {r : Reading} (hr : r ∈ Reading.ofSource source) : r.answer = .ok r.statements := by
  obtain ⟨groups, hgroups, -⟩ := assemble?_eq_ok_iff.mp h
  have hanswer := List.mem_map_of_mem (f := (·.answer)) hr
  rw [Reading.ofSource, Context.expandLines_eq_ok_iff.mp hgroups] at hanswer
  obtain ⟨stmts, -, hstmts⟩ := List.mem_map.mp hanswer
  rw [Reading.statements, ← hstmts]
  rfl

/-- **The listing tiles the program.** Behind the heading, the listing of an assembled source has a
line for each operation and each line of data, in order, and an operation is shown with the number
and the text of its line. Each line has the address that is the number of words before it, the word
of an operation is the one at its address, and all together are as many as the program has. -/
theorem assemble_listing {source : List Char} {p : Program} (h : assemble? source = .ok p) :
    ∃ entries, (assemble source).2 = .header :: entries ∧
      List.Forall₂ Entry.Shows entries
        (((Reading.ofSource source).flatMap (·.sourced)).filter (·.isListed)) ∧
      (∀ r ∈ Reading.ofSource source, r.answer = .ok r.statements) ∧
      (Reading.ofSource source).map (fun r => (r.source, r.line)) = (Text.lines source).zipIdx 1 ∧
      (∀ front e back, entries = front ++ e :: back →
        e.address? = some (UInt16.ofNat (Entry.sizes front))) ∧
      (∀ address word line text, .inst address word line text ∈ entries →
        p.words[address.toNat]? = some word) ∧
      Entry.sizes entries = p.words.length := by
  obtain ⟨groups, hgroups, hp, -⟩ := assemble?_eq_ok_iff.mp h
  rw [← Context.ofReadings_of_expandLines hgroups] at hp
  have hplace := Placed.place_ofSource source
  obtain ⟨htiles, hshows⟩ := Placed.entries_of_encodeFrom hplace hp.encodeFrom_eq
  have hlisting := listing_of_ok h
  rw [Placed.map_sourced_ofReadings] at hshows
  rw [reverse_units_ofSource hp.sizes_le] at hlisting
  refine ⟨_, hlisting, hshows, fun r => answer_of_ok h, Context.zipIdx_readings _ _ _, ?_, ?_,
    htiles.sizes_eq⟩
  · intro front e back hsplit
    rw [hsplit] at htiles
    rw [htiles.address?_of_split, Nat.zero_add]
  · intro address word line text hmem
    obtain ⟨front, back, hsplit⟩ := List.append_of_mem hmem
    rw [hsplit] at htiles
    exact htiles.getElem?_of_split (hp.length_words ▸ hp.sizes_le)

/-- A label, data of two words and of none, a call that comes to three operations, and a jump. -/
theorem assemble_listing_call :
    ∃ p entries,
      assemble? "f:\n% 0001 0002\n%\n1.mem <= f(2.reg)\ncopy 4.val 0.reg".toList = .ok p ∧
      p.words = [0x0001, 0x0002, 0x6443, 0x6740, 0x600F, 0x6200] ∧
      (assemble "f:\n% 0001 0002\n%\n1.mem <= f(2.reg)\ncopy 4.val 0.reg".toList).2 =
        .header :: entries ∧
      (∀ address word line text, .inst address word line text ∈ entries →
        p.words[address.toNat]? = some word) ∧
      Entry.sizes entries = 6 := by
  obtain ⟨p, hp, hwords⟩ := @exists_program_of_words
    "f:\n% 0001 0002\n%\n1.mem <= f(2.reg)\ncopy 4.val 0.reg".toList
    [0x0001, 0x0002, 0x6443, 0x6740, 0x600F, 0x6200] (by decide +kernel)
  obtain ⟨entries, hlisting, -, -, -, -, hinst, hsizes⟩ := assemble_listing hp
  refine ⟨p, entries, hp, hwords, hlisting, hinst, ?_⟩
  rw [hsizes, hwords]
  rfl

end Assembly

end WordMachine
