import WordMachine.Proofs.Images
import WordMachine.Proofs.RunStates

/-!
# Loading

Words are loaded page by page, from a page of the caller's choice on, and the last page may be
filled in part. One comparison of numbers stands before all of this, and it is meant to say that
every word has a place: word `i` the place `i % 256` of the page `i / 256` pages behind the first.
Where that is so, no piece is left without a page, and by induction on the pieces
(`Memory.read_copyPieces`) each word is found at its own place, and nothing else has changed. These
places tell everything about the memory (`Memory.HasLoaded`): no other one is like that, so the
description is complete, and read-only pages need not be mentioned in it.

An image is loaded as the words that it was written for, and one with half a word at its end is
refused without a look at the memory. Whatever the answer, a processor keeps the memory as the load
left it, and so a refusal has to have left it alone.

## Main results

* `Memory.hasRoom_iff`: when every word has a place
* `Memory.loadWords_eq_ok_iff`, `Memory.loadWords_eq_error_iff`: the memory behind either answer
* `Memory.load_all_or_nothing`: both, with images and with banks
-/

namespace WordMachine

namespace Memory

variable {m l n : Memory} {startPage : Nat} {ws : List Word}

/-- There is a place for each of so many words from a page on. -/
def HasRoom (m : Memory) (startPage count : Nat) : Prop :=
  ∀ i < count, startPage + i / 256 < m.pages

/-- The second memory is the first one with words in it from a page on, and is the same in
everything else. -/
structure HasLoaded (m : Memory) (startPage : Nat) (ws : List Word) (l : Memory) : Prop where
  pages_eq : l.pages = m.pages
  rom_eq : l.rom = m.rom
  read_word : ∀ i (hi : i < ws.length), l.read (startPage + i / 256) (i % 256) = some ws[i]
  read_other : ∀ page offset,
    (∀ i < ws.length, ¬ (page = startPage + i / 256 ∧ offset = i % 256)) →
      l.read page offset = m.read page offset

/-- Every word has a place exactly if there are not more words than there are places. -/
theorem hasRoom_iff {count : Nat} : m.HasRoom startPage count ↔ count ≤ m.capacity startPage := by
  rw [capacity]
  constructor
  · intro h
    rcases Nat.eq_zero_or_pos count with rfl | hpos
    · exact Nat.zero_le _
    · have hlast := h (count - 1) (by omega)
      omega
  · intro h i hi
    omega

/-! ### Words -/

/-- What the memory is once the pieces have been copied. -/
theorem hasLoaded_copyPieces (hroom : m.HasRoom startPage ws.length) :
    m.HasLoaded startPage ws
      { m with contents := copyPieces m.contents startPage (pieces ws) } where
  pages_eq := size_copyPieces ..
  rom_eq := rfl
  read_word i hi := by
    have hplace : startPage + i / 256 < m.pages ∧ i % 256 < 256 :=
      ⟨hroom i hi, Nat.mod_lt i (by omega)⟩
    obtain ⟨old, hold⟩ := exists_read_iff.mpr hplace
    have hindex : 256 * (startPage + i / 256 - startPage) + i % 256 = i := by omega
    rw [read_copyPieces, if_pos (Nat.le_add_right _ _), hold, Option.map_some, hindex,
      List.getElem?_eq_getElem hi]
    rfl
  read_other page offset hplace := by
    rw [read_copyPieces]
    split
    · next hpage =>
      rcases hold : m.read page offset with _ | old
      · rfl
      · -- The place is numbered from the first page on. No word has this number.
        have hoffset : offset < 256 := (exists_read_iff.mp ⟨old, hold⟩).2
        have hbehind : ws.length ≤ 256 * (page - startPage) + offset := by
          refine Nat.le_of_not_lt fun hi => hplace _ hi ?_
          omega
        rw [Option.map_some, List.getElem?_eq_none hbehind]
        rfl
    · rfl

namespace HasLoaded

theorem hasRoom (h : m.HasLoaded startPage ws l) : m.HasRoom startPage ws.length :=
  fun i hi => h.pages_eq ▸ (exists_read_iff.mp ⟨_, h.read_word i hi⟩).1

/-- What was loaded, and where, leaves nothing open. -/
theorem unique (hl : m.HasLoaded startPage ws l) (hn : m.HasLoaded startPage ws n) : l = n := by
  refine ext_read (hl.pages_eq.trans hn.pages_eq.symm) (hl.rom_eq.trans hn.rom_eq.symm) ?_
  intro page offset
  by_cases hplace : ∃ i < ws.length, page = startPage + i / 256 ∧ offset = i % 256
  · obtain ⟨i, hi, rfl, rfl⟩ := hplace
    rw [hl.read_word i hi, hn.read_word i hi]
  · have hother : ∀ i < ws.length, ¬ (page = startPage + i / 256 ∧ offset = i % 256) :=
      fun i hi hi' => hplace ⟨i, hi, hi'⟩
    rw [hl.read_other page offset hother, hn.read_other page offset hother]

end HasLoaded

/-- **What is in a memory once words have been loaded.** -/
theorem loadWords_eq_ok_iff :
    m.loadWords startPage ws = (.ok (), l) ↔ m.HasLoaded startPage ws l := by
  rcases m.loadWords_cases startPage ws with ⟨hlt, hload⟩ | ⟨hle, hload⟩
  · rw [hload]
    exact ⟨nofun, fun h => absurd (hasRoom_iff.mp h.hasRoom) (Nat.not_le.mpr hlt)⟩
  · have hloaded := hasLoaded_copyPieces (m := m) (hasRoom_iff.mpr hle)
    rw [hload]
    constructor
    · rintro ⟨⟩
      exact hloaded
    · intro h
      rw [hloaded.unique h]

/-- **What is in a memory once words have been refused.** -/
theorem loadWords_eq_error_iff {e : LoadError} : m.loadWords startPage ws = (.error e, l) ↔
    ¬ m.HasRoom startPage ws.length ∧ e = .tooLarge ws.length (m.capacity startPage) ∧ l = m := by
  rw [hasRoom_iff, Nat.not_le]
  rcases m.loadWords_cases startPage ws with ⟨hlt, hload⟩ | ⟨hle, hload⟩
  · rw [hload]
    constructor
    · rintro ⟨⟩
      exact ⟨hlt, rfl, rfl⟩
    · rintro ⟨-, rfl, rfl⟩
      rfl
  · rw [hload]
    exact ⟨nofun, fun h => absurd h.1 (Nat.not_lt.mpr hle)⟩

/-! ### Images -/

/-- Bytes are loaded as words, unless one of them has no partner. -/
theorem loadImage_cases (m : Memory) (startPage : Nat) (bs : List UInt8) :
    bs.length % 2 = 1 ∧ m.loadImage startPage bs = (.error .parity, m) ∨
      ∃ ws, bs = Image.bytes ws ∧ m.loadImage startPage bs = m.loadWords startPage ws := by
  rcases hwords : Image.words? bs with _ | ws
  · refine .inl ⟨Image.words?_eq_none_iff.mp hwords, ?_⟩
    rw [loadImage, hwords]
  · obtain rfl := Image.words?_eq_some_iff.mp hwords
    exact .inr ⟨ws, rfl, loadImage_bytes m startPage ws⟩

/-- What is refused changes nothing. -/
theorem eq_of_loadWords_ne_ok {answer : Except LoadError Unit}
    (h : m.loadWords startPage ws = (answer, l)) (hrefused : answer ≠ .ok ()) : l = m := by
  rcases answer with e | ⟨⟩
  · exact (loadWords_eq_error_iff.mp h).2.2
  · exact absurd rfl hrefused

theorem eq_of_loadImage_ne_ok {answer : Except LoadError Unit} {bs : List UInt8}
    (h : m.loadImage startPage bs = (answer, l)) (hrefused : answer ≠ .ok ()) : l = m := by
  obtain ⟨-, hload⟩ | ⟨ws, -, hload⟩ := m.loadImage_cases startPage bs
  · rw [hload] at h
    exact (Prod.ext_iff.mp h).2.symm
  · exact eq_of_loadWords_ne_ok (hload ▸ h) hrefused

end Memory

/-! ### Banks -/

namespace Bank

variable {b : Bank} {k : Nat} {p : Processor}

theorem act_load (hp : b.get? k = some (.processor p)) (ws : List Word) :
    b.act (.load k ws) =
      b.put k (.processor { p with memory := (p.memory.loadWords 0 ws).2 }) :=
  update_eq_put hp _

theorem act_loadBytes (hp : b.get? k = some (.processor p)) (bs : List UInt8) :
    b.act (.loadBytes k bs) =
      b.put k (.processor { p with memory := (p.memory.loadImage 0 bs).2 }) :=
  update_eq_put hp _

end Bank

/-- **Loading is all or nothing.** Words are refused exactly if one of them has no place in the
pages from the first one on, and for no other reason, and then the memory is left as it was. If they
are not refused, then each of them is at its place, and all else about the memory is as it was.
Bytes are refused if there is an odd number of them, which leaves the memory as it was, and are
loaded as words otherwise. On a bank, a processor that is to be loaded is left with nothing changed
but its memory, and if the load is refused, with nothing changed at all. -/
theorem Memory.load_all_or_nothing (m : Memory) (startPage : Nat) :
    (∀ ws e l, m.loadWords startPage ws = (.error e, l) ↔
      (∃ i < ws.length, m.pages ≤ startPage + i / 256) ∧
        e = .tooLarge ws.length (256 * (m.pages - startPage)) ∧ l = m) ∧
    (∀ ws l, m.loadWords startPage ws = (.ok (), l) ↔ m.HasLoaded startPage ws l) ∧
    (∀ bs, bs.length % 2 = 1 ∧ m.loadImage startPage bs = (.error .parity, m) ∨
      ∃ ws, bs = Image.bytes ws ∧ m.loadImage startPage bs = m.loadWords startPage ws) ∧
    ∀ (b : Bank) (k : Nat) (p : Processor), b.get? k = some (.processor p) →
      (∀ ws answer l, p.memory.loadWords 0 ws = (answer, l) →
        b.act (.load k ws) = b.put k (.processor { p with memory := l }) ∧
          (answer ≠ .ok () → b.act (.load k ws) = b)) ∧
      ∀ bs answer l, p.memory.loadImage 0 bs = (answer, l) →
        b.act (.loadBytes k bs) = b.put k (.processor { p with memory := l }) ∧
          (answer ≠ .ok () → b.act (.loadBytes k bs) = b) := by
  refine ⟨fun ws e l => ?_, fun ws l => loadWords_eq_ok_iff, m.loadImage_cases startPage,
    fun b k p hp => ⟨fun ws answer l hload => ⟨?_, fun hrefused => ?_⟩,
      fun bs answer l hload => ⟨?_, fun hrefused => ?_⟩⟩⟩
  · simp [loadWords_eq_error_iff, HasRoom, capacity]
  · rw [Bank.act_load hp, hload]
  · rw [Bank.act_load hp, hload, eq_of_loadWords_ne_ok hload hrefused]
    exact Bank.put_self hp
  · rw [Bank.act_loadBytes hp, hload]
  · rw [Bank.act_loadBytes hp, hload, eq_of_loadImage_ne_ok hload hrefused]
    exact Bank.put_self hp

/-- Two words in the second of two read-only pages, one that has no place behind them, half a word,
and a processor with one page that is to be loaded with a word more. -/
theorem Memory.load_all_or_nothing_rom :
    (∃ l, (blank 2 2).loadWords 1 [7, 8] = (.ok (), l) ∧ l.rom = 2 ∧ l.read 1 1 = some 8 ∧
      l.read 0 1 = some 0 ∧ l.read 1 2 = some 0) ∧
    (blank 2 2).loadWords 2 [7] = (.error (.tooLarge 1 0), blank 2 2) ∧
    (blank 2 2).loadImage 0 [1, 2, 3] = (.error .parity, blank 2 2) ∧
    (Bank.ofList [.processor (.new 1 1 0)]).act (.load 0 (List.replicate 257 9)) =
      Bank.ofList [.processor (.new 1 1 0)] := by
  obtain ⟨hrefused, hloaded, -, -⟩ := load_all_or_nothing (blank 2 2) 1
  refine ⟨?_, ?_, ?_, ?_⟩
  · obtain ⟨l, hload⟩ | ⟨e, l, hload⟩ :
        (∃ l, (blank 2 2).loadWords 1 [7, 8] = (.ok (), l)) ∨
          ∃ e l, (blank 2 2).loadWords 1 [7, 8] = (.error e, l) := by
      rcases (blank 2 2).loadWords 1 [7, 8] with ⟨e | ⟨⟩, l⟩
      · exact .inr ⟨e, l, rfl⟩
      · exact .inl ⟨l, rfl⟩
    · have h := (hloaded _ l).mp hload
      refine ⟨l, hload, h.rom_eq, h.read_word 1 (by decide), ?_, ?_⟩
      · rw [h.read_other 0 1 fun i _ hplace => by omega]
        rw [read_blank]
        rfl
      · rw [h.read_other 1 2 fun i hi hplace => by
          simp only [List.length_cons, List.length_nil] at hi
          omega]
        rw [read_blank]
        rfl
    · obtain ⟨⟨i, hi, hplace⟩, -⟩ := (hrefused _ e l).mp hload
      simp only [List.length_cons, List.length_nil, pages_blank] at hi hplace
      omega
  · exact ((load_all_or_nothing (blank 2 2) 2).1 _ _ _).mpr
      ⟨⟨0, by decide, Nat.le_of_eq (pages_blank 2 2)⟩, rfl, rfl⟩
  · obtain ⟨-, h⟩ | ⟨ws, h, -⟩ := (load_all_or_nothing (blank 2 2) 0).2.2.1 [1, 2, 3]
    · exact h
    · have hodd : Image.words? [1, 2, 3] = some ws := Image.words?_eq_some_iff.mpr h
      cases hodd
  · obtain ⟨hrefused, -, -, hbank⟩ := load_all_or_nothing (Processor.new 1 1 0).memory 0
    have hlength : (List.replicate 257 (9 : Word)).length = 257 := List.length_replicate
    have hload : (Processor.new 1 1 0).memory.loadWords 0 (List.replicate 257 9) =
        (.error (.tooLarge 257 256), (Processor.new 1 1 0).memory) := by
      refine (hrefused _ _ _).mpr ⟨⟨256, ?_, ?_⟩, ?_, rfl⟩
      · rw [hlength]
        decide
      · exact Nat.le_of_eq (pages_blank 1 0)
      · rw [hlength]
        rfl
    exact ((hbank (Bank.ofList [.processor (.new 1 1 0)]) 0 (.new 1 1 0) rfl).1 _ _ _ hload).2 nofun

end WordMachine
