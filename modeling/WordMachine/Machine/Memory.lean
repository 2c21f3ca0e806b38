import WordMachine.Image

/-!
# Memory

A memory is a number of pages of 256 words each. Its first pages may be read-only: they are filled
when a program is loaded, and refuse every write. What lies outside the pages is neither read nor
written.

Words are loaded a page at a time. They are cut into pieces of the length of a page, and each piece
is copied over the first words of a page of its own. Only the last piece may be shorter, so only the
last of these pages may keep words at its end.

## Main statements

* `Memory.read_write`: a write is seen at its own place and nowhere else
* `Memory.read_copyPieces`: what the pages hold behind the copies, by induction on the pieces
* `Memory.read_load`: a loaded word is found as far behind the start as it is in the image
-/

namespace WordMachine

/-- The words of a page. -/
abbrev Page := Vector Word 256

/-- Words in pages. -/
structure Memory where
  contents : Array Page
  /-- How many pages, from the first on, are read-only. -/
  rom : Nat
  deriving DecidableEq

/-- Why an image cannot be loaded. -/
inductive LoadError where
  /-- It has half a word at its end. -/
  | parity
  /-- It has more words than the pages from the start on. -/
  | tooLarge (words capacity : Nat)
  deriving DecidableEq, Repr, Inhabited

/-- The wording of an error. -/
def LoadError.message : LoadError → String
  | parity => "program image has an odd number of bytes"
  | tooLarge words capacity =>
    "program image of " ++ toString words ++ " words does not fit in " ++ toString capacity
      ++ " words of memory"

namespace Page

/-- A page full of zeros. -/
def blank : Page := Vector.replicate 256 0

/-- A page with words one behind another, from a place on. -/
def copyAt (p : Page) (start : Nat) : List Word → Page
  | [] => p
  | w :: ws => copyAt (p.setIfInBounds start w) (start + 1) ws

/-- A page with a piece over its first words. -/
def copy (p : Page) (piece : List Word) : Page := p.copyAt 0 piece

theorem getElem_copyAt (p : Page) (start : Nat) (ws : List Word) (i : Nat) (hi : i < 256) :
    (p.copyAt start ws)[i] = if start ≤ i then ws[i - start]?.getD p[i] else p[i] := by
  induction ws generalizing p start with
  | nil => simp [copyAt]
  | cons w ws ih =>
    rw [copyAt, ih]
    by_cases h : start = i
    · subst h
      have : ¬ start + 1 ≤ start := by omega
      simp [this]
    · by_cases hle : start ≤ i
      · have hs : start + 1 ≤ i := by omega
        have hd : i - start = (i - (start + 1)) + 1 := by omega
        simp [hle, hs, hd, h]
      · have hs : ¬ start + 1 ≤ i := by omega
        simp [hle, hs, h]

theorem getElem_copy (p : Page) (piece : List Word) (i : Nat) (hi : i < 256) :
    (p.copy piece)[i] = piece[i]?.getD p[i] := by
  rw [copy, getElem_copyAt, if_pos (Nat.zero_le i), Nat.sub_zero]

end Page

namespace Memory

/-- The number of pages. -/
def pages (m : Memory) : Nat := m.contents.size

/-- A memory full of zeros. -/
def blank (pages rom : Nat) : Memory := ⟨Array.replicate pages .blank, min rom pages⟩

/-- Whether a page is read-only. -/
def isRom (m : Memory) (page : Nat) : Bool := page < m.rom

/-- The word at a place of a page. -/
@[inline] def read (m : Memory) (page offset : Nat) : Option Word :=
  m.contents[page]?.bind fun p => p[offset]?

/-- Whether a place of a page can be written. -/
def isWritable (m : Memory) (page offset : Nat) : Bool :=
  page < m.pages && offset < 256 && !m.isRom page

/-- The memory behind a write. Where there is nothing to be written, nothing happens. -/
def write (m : Memory) (page offset : Nat) (w : Word) : Memory :=
  if m.isRom page then m
  else { m with contents := m.contents.modify page (·.setIfInBounds offset w) }

/-- The word at an address. -/
@[inline] def readAt (m : Memory) (addr : Word) : Option Word :=
  m.read (Word.page addr) (Word.offset addr)

/-- The memory behind a write to an address. -/
def writeAt (m : Memory) (addr w : Word) : Memory := m.write (Word.page addr) (Word.offset addr) w

/-- The words of a page. -/
def page? (m : Memory) (page : Nat) : Option (List Word) := m.contents[page]?.map (·.toList)

/-- Words cut into pieces of the length of a page. -/
def pieces : List Word → List (List Word)
  | [] => []
  | w :: ws => (w :: ws).take 256 :: pieces ((w :: ws).drop 256)
termination_by ws => ws.length
decreasing_by
  rw [List.length_drop, List.length_cons]
  omega

/-- The pages with pieces copied into them, one piece each, from a page on. What there is no page
for is left out. -/
def copyPieces (contents : Array Page) (page : Nat) : List (List Word) → Array Page
  | [] => contents
  | piece :: rest => copyPieces (contents.modify page (·.copy piece)) (page + 1) rest

/-- The number of words from a page on. -/
def capacity (m : Memory) (startPage : Nat) : Nat := 256 * (m.pages - startPage)

/-- Loads words from a page on, read-only pages included. The answer tells whether there was room
for them, and beside it is the memory as it was left. -/
def loadWords (m : Memory) (startPage : Nat) (ws : List Word) : Except LoadError Unit × Memory :=
  if m.capacity startPage < ws.length then
    (.error (.tooLarge ws.length (m.capacity startPage)), m)
  else (.ok (), { m with contents := copyPieces m.contents startPage (pieces ws) })

/-- Loads an image from a page on. -/
def loadImage (m : Memory) (startPage : Nat) (bs : List UInt8) : Except LoadError Unit × Memory :=
  match Image.words? bs with
  | none => (.error .parity, m)
  | some ws => m.loadWords startPage ws

/-- The memory behind a load, if there is no error. -/
def ofLoad : Except LoadError Unit × Memory → Except LoadError Memory
  | (.error e, _) => .error e
  | (.ok _, l) => .ok l

/-- The memory with words loaded from a page on. -/
def load (m : Memory) (startPage : Nat) (ws : List Word) : Except LoadError Memory :=
  ofLoad (m.loadWords startPage ws)

/-- The memory with an image loaded from a page on. -/
def loadBytes (m : Memory) (startPage : Nat) (bs : List UInt8) : Except LoadError Memory :=
  ofLoad (m.loadImage startPage bs)

@[simp] theorem pages_blank (pages rom : Nat) : (blank pages rom).pages = pages :=
  Array.size_replicate

theorem pages_write (m : Memory) (page offset : Nat) (w : Word) :
    (m.write page offset w).pages = m.pages := by
  rw [write]
  split
  · rfl
  · exact Array.size_modify

theorem rom_write (m : Memory) (page offset : Nat) (w : Word) :
    (m.write page offset w).rom = m.rom := by
  rw [write]
  split <;> rfl

theorem pages_writeAt (m : Memory) (addr w : Word) : (m.writeAt addr w).pages = m.pages :=
  pages_write m _ _ w

theorem size_copyPieces (contents : Array Page) (page : Nat) (ps : List (List Word)) :
    (copyPieces contents page ps).size = contents.size := by
  induction ps generalizing contents page with
  | nil => rfl
  | cons piece rest ih => rw [copyPieces, ih, Array.size_modify]

/-- Either there is too little room and nothing happens, or everything is copied. -/
theorem loadWords_cases (m : Memory) (startPage : Nat) (ws : List Word) :
    m.capacity startPage < ws.length ∧
        m.loadWords startPage ws = (.error (.tooLarge ws.length (m.capacity startPage)), m) ∨
      ws.length ≤ m.capacity startPage ∧
        m.loadWords startPage ws =
          (.ok (), { m with contents := copyPieces m.contents startPage (pieces ws) }) := by
  rw [loadWords]
  by_cases h : m.capacity startPage < ws.length
  · exact .inl ⟨h, if_pos h⟩
  · exact .inr ⟨Nat.le_of_not_lt h, if_neg h⟩

theorem pages_loadWords (m : Memory) (startPage : Nat) (ws : List Word) :
    (m.loadWords startPage ws).2.pages = m.pages := by
  rcases m.loadWords_cases startPage ws with ⟨-, hload⟩ | ⟨-, hload⟩
  · rw [hload]
  · rw [hload]
    exact size_copyPieces ..

theorem pages_loadImage (m : Memory) (startPage : Nat) (bs : List UInt8) :
    (m.loadImage startPage bs).2.pages = m.pages := by
  rw [loadImage]
  split
  · rfl
  · exact pages_loadWords ..

theorem load_eq_ok_iff {m l : Memory} {startPage : Nat} {ws : List Word} :
    m.load startPage ws = .ok l ↔ ws.length ≤ m.capacity startPage ∧
      l = { m with contents := copyPieces m.contents startPage (pieces ws) } := by
  rcases m.loadWords_cases startPage ws with ⟨hlt, hload⟩ | ⟨hle, hload⟩
  · rw [load, hload]
    exact ⟨nofun, fun h => absurd h.1 (Nat.not_le.mpr hlt)⟩
  · rw [load, hload]
    exact ⟨fun h => ⟨hle, (Except.ok.inj h).symm⟩, fun h => congrArg Except.ok h.2.symm⟩

theorem pages_load {m l : Memory} {startPage : Nat} {ws : List Word}
    (h : m.load startPage ws = .ok l) : l.pages = m.pages := by
  rw [(load_eq_ok_iff.mp h).2]
  exact size_copyPieces ..

theorem rom_load {m l : Memory} {startPage : Nat} {ws : List Word}
    (h : m.load startPage ws = .ok l) : l.rom = m.rom := by
  rw [(load_eq_ok_iff.mp h).2]

/-- There is a word exactly at the places of the pages. -/
theorem exists_read_iff {m : Memory} {page offset : Nat} :
    (∃ w, m.read page offset = some w) ↔ page < m.pages ∧ offset < 256 := by
  rw [read, pages]
  by_cases hp : page < m.contents.size
  · rw [Array.getElem?_eq_getElem hp, Option.bind_some]
    by_cases ho : offset < 256
    · simp [hp, ho]
    · simp [ho]
  · simp [hp]

theorem read_blank (pages rom page offset : Nat) :
    (blank pages rom).read page offset =
      if page < pages ∧ offset < 256 then some 0 else none := by
  by_cases hp : page < pages
  · by_cases ho : offset < 256
    · simp [read, blank, Page.blank, hp, ho]
    · simp [read, blank, hp, ho]
  · simp [read, blank, hp]

/-- What is read from a memory in which one page has been changed. -/
theorem read_modify (m : Memory) (page p o : Nat) (f : Page → Page) :
    ({ m with contents := m.contents.modify page f } : Memory).read p o =
      if p = page then m.contents[p]?.bind fun old => (f old)[o]? else m.read p o := by
  simp only [read, Array.getElem?_modify]
  by_cases h : page = p
  · subst h
    cases m.contents[page]? <;> simp
  · have hne : ¬ p = page := fun hp => h hp.symm
    simp [h, hne]

theorem isWritable_iff {m : Memory} {page offset : Nat} :
    m.isWritable page offset = true ↔
      (page < m.pages ∧ offset < 256) ∧ ¬ m.isRom page = true := by
  simp only [isWritable, Bool.and_eq_true, decide_eq_true_eq, Bool.not_eq_true']
  rw [Bool.not_eq_true]

theorem read_write (m : Memory) (page offset p o : Nat) (w : Word) :
    (m.write page offset w).read p o =
      if m.isWritable page offset ∧ p = page ∧ o = offset then some w else m.read p o := by
  rw [write]
  by_cases hrom : m.isRom page = true
  · rw [if_pos hrom, if_neg fun h => (isWritable_iff.mp h.1).2 hrom]
  · rw [if_neg hrom, read_modify]
    by_cases hp : p = page
    · subst hp
      rw [if_pos rfl]
      rcases hold : m.contents[p]? with _ | old
      · have hnone : ¬ p < m.pages := Nat.not_lt.mpr (Array.getElem?_eq_none_iff.mp hold)
        rw [if_neg fun h => hnone (isWritable_iff.mp h.1).1.1, read, hold]
        rfl
      · have hsome : p < m.pages := (Array.getElem?_eq_some_iff.mp hold).1
        rw [read, hold, Option.bind_some, Option.bind_some, Vector.getElem?_setIfInBounds]
        by_cases ho : offset = o
        · subst ho
          by_cases hlt : offset < 256
          · rw [if_pos rfl, if_pos hlt, if_pos ⟨isWritable_iff.mpr ⟨⟨hsome, hlt⟩, hrom⟩, rfl, rfl⟩]
          · rw [if_pos rfl, if_neg hlt, if_neg fun h => hlt (isWritable_iff.mp h.1).1.2,
              Vector.getElem?_eq_none_iff.mpr (Nat.not_lt.mp hlt)]
        · rw [if_neg ho, if_neg fun h => ho h.2.2.symm]
    · rw [if_neg hp, if_neg fun h => hp h.2.1]

/-- A memory is known by its pages and by what is read in them. -/
theorem ext_read {l n : Memory} (hpages : l.pages = n.pages) (hrom : l.rom = n.rom)
    (hread : ∀ page offset, l.read page offset = n.read page offset) : l = n := by
  obtain ⟨contents, rom⟩ := l
  obtain ⟨contents', rom'⟩ := n
  obtain rfl : rom = rom' := hrom
  suffices contents = contents' by rw [this]
  refine Array.ext hpages fun page hl hn => Vector.ext fun offset hoffset => ?_
  have hword := hread page offset
  simpa only [read, Array.getElem?_eq_getElem hl, Array.getElem?_eq_getElem hn, Option.bind_some,
    Vector.getElem?_eq_getElem hoffset, Option.some.injEq] using hword

/-- A write that is refused changes nothing. -/
theorem write_of_not_isWritable {m : Memory} {page offset : Nat}
    (h : ¬ m.isWritable page offset = true) (w : Word) : m.write page offset w = m := by
  refine ext_read (pages_write ..) (rom_write ..) fun p o => ?_
  rw [read_write, if_neg fun hand => h hand.1]

/-! ### Pieces -/

/-- One piece is found in the page that it was copied into. -/
theorem read_copy (m : Memory) (page : Nat) (piece : List Word) (p o : Nat) :
    ({ m with contents := m.contents.modify page (·.copy piece) } : Memory).read p o =
      if p = page then (m.read p o).map fun old => piece[o]?.getD old else m.read p o := by
  rw [read_modify]
  by_cases hp : p = page
  · rw [if_pos hp, if_pos hp, read]
    rcases m.contents[p]? with _ | old
    · rfl
    · rw [Option.bind_some, Option.bind_some]
      by_cases ho : o < 256
      · rw [Vector.getElem?_eq_getElem ho, Vector.getElem?_eq_getElem ho, Page.getElem_copy,
          Option.map_some]
      · rw [Vector.getElem?_eq_none_iff.mpr (Nat.not_lt.mp ho),
          Vector.getElem?_eq_none_iff.mpr (Nat.not_lt.mp ho), Option.map_none]
  · rw [if_neg hp, if_neg hp]

/-- All pieces are found in the pages they were copied into, by induction on the pieces. The first
of them is in the first page, where it covers what the words begin with; in the pages behind, the
others are found by hypothesis. -/
theorem read_copyPieces (m : Memory) (startPage : Nat) (ws : List Word) (page offset : Nat) :
    ({ m with contents := copyPieces m.contents startPage (pieces ws) } : Memory).read page offset =
      if startPage ≤ page then
        (m.read page offset).map fun old => ws[256 * (page - startPage) + offset]?.getD old
      else m.read page offset := by
  induction ws using pieces.induct generalizing m startPage with
  | case1 =>
    rw [pieces, copyPieces]
    simp
  | case2 w ws ih =>
    rw [pieces, copyPieces]
    generalize w :: ws = words at ih ⊢
    refine (ih { m with contents := m.contents.modify startPage (·.copy (words.take 256)) }
      (startPage + 1)).trans ?_
    rw [read_copy]
    by_cases hfirst : page = startPage
    · subst hfirst
      have hbehind : ¬ page + 1 ≤ page := by omega
      rw [if_neg hbehind, if_pos rfl, if_pos (Nat.le_refl page)]
      refine Option.map_congr fun old hold => ?_
      have hoffset : offset < 256 := (exists_read_iff.mp ⟨old, hold⟩).2
      rw [List.getElem?_take_of_lt hoffset, Nat.sub_self, Nat.mul_zero, Nat.zero_add]
    · rw [if_neg hfirst]
      by_cases hbehind : startPage ≤ page
      · have hnext : startPage + 1 ≤ page := by omega
        have hplace : 256 + (256 * (page - (startPage + 1)) + offset)
            = 256 * (page - startPage) + offset := by omega
        rw [if_pos hnext, if_pos hbehind]
        simp only [List.getElem?_drop, hplace]
      · have hnext : ¬ startPage + 1 ≤ page := by omega
        rw [if_neg hnext, if_neg hbehind]

theorem read_load {m l : Memory} {startPage : Nat} {ws : List Word}
    (h : m.load startPage ws = .ok l) (page offset : Nat) :
    l.read page offset =
      if startPage ≤ page then
        (m.read page offset).map fun old =>
          ws[256 * (page - startPage) + offset]?.getD old
      else m.read page offset := by
  rw [(load_eq_ok_iff.mp h).2]
  exact read_copyPieces m startPage ws page offset

end Memory

end WordMachine
