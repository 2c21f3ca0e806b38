import WordMachine.Proofs.Addresses
import WordMachine.Proofs.Execution

/-!
# Images

A program gets from the assembler to a machine in two ways: as its words, or as the bytes of its
image. Nothing is lost on the longer one. An image is read by pairs of bytes and was written by
pairs of bytes, so the two are inverse to each other wherever the bytes pair up. And a program that
was assembled is never too long: the assembler keeps it within the address space, and the memory
that programs are started in takes up all of that.

## Main results

* `Image.words?_eq_some_iff`, `Image.words?_eq_none_iff`: what an image is read as, and when it is
  none
* `Machine.startImage_bytes`: to start a machine from an image is to start it from the words
* `Assembly.startImage_assembled`: the image of a source is started like its program
-/

namespace WordMachine

namespace Image

/-- Two bytes are written as they were read. -/
theorem wordBytes_word (low high : UInt8) : wordBytes (word low high) = [low, high] := by
  have hlow := UInt8.toNat_lt low
  have hhigh := UInt8.toNat_lt high
  have hnat : (word low high).toNat = low.toNat + 256 * high.toNat :=
    Word.toNat_ofNat_of_lt (by omega)
  have hfirst : UInt8.ofNat (word low high).toNat = low := by
    apply UInt8.toNat_inj.mp
    rw [hnat, UInt8.toNat_ofNat']
    omega
  have hsecond : UInt8.ofNat ((word low high).toNat / 256) = high := by
    apply UInt8.toNat_inj.mp
    rw [hnat, UInt8.toNat_ofNat']
    omega
  rw [wordBytes, hfirst, hsecond]

/-- What is read behind other words is what the bytes were written for. -/
theorem wordsAfter_eq_some {done ws : List Word} {bs : List UInt8}
    (h : wordsAfter done bs = some ws) : ∃ us, ws = done.reverse ++ us ∧ bs = bytes us := by
  induction done, bs using wordsAfter.induct with
  | case1 done =>
    cases h
    exact ⟨[], (List.append_nil _).symm, rfl⟩
  | case2 done b => cases h
  | case3 done low high rest ih =>
    obtain ⟨us, rfl, rfl⟩ := ih h
    refine ⟨word low high :: us, ?_, ?_⟩
    · rw [List.reverse_cons, List.append_assoc, List.singleton_append]
    · change low :: high :: bytes us = wordBytes (word low high) ++ bytes us
      rw [wordBytes_word]
      rfl

/-- **An image is read as the words that it was written for**, and as no others. -/
theorem words?_eq_some_iff {bs : List UInt8} {ws : List Word} :
    words? bs = some ws ↔ bs = bytes ws := by
  constructor
  · intro h
    obtain ⟨us, rfl, rfl⟩ := wordsAfter_eq_some h
    rfl
  · rintro rfl
    exact words?_bytes ws

theorem wordsAfter_eq_none_iff {done : List Word} {bs : List UInt8} :
    wordsAfter done bs = none ↔ bs.length % 2 = 1 := by
  induction done, bs using wordsAfter.induct with
  | case1 done => simp [wordsAfter]
  | case2 done b => simp [wordsAfter]
  | case3 done low high rest ih =>
    rw [wordsAfter, ih, List.length_cons, List.length_cons]
    omega

/-- **Bytes are no image exactly if one of them has no partner.** -/
theorem words?_eq_none_iff {bs : List UInt8} : words? bs = none ↔ bs.length % 2 = 1 :=
  wordsAfter_eq_none_iff

end Image

/-- To load an image is to load its words. -/
theorem Memory.loadImage_bytes (m : Memory) (startPage : Nat) (ws : List Word) :
    m.loadImage startPage (Image.bytes ws) = m.loadWords startPage ws := by
  rw [loadImage, Image.words?_bytes]

namespace Machine

theorem bootImage_bytes (id : Word) (pages : Nat) (ws : List Word) :
    bootImage id pages (Image.bytes ws) = boot id pages ws := by
  rw [bootImage, boot, Processor.loadBytes, Processor.load, Memory.loadBytes,
    Memory.loadImage_bytes, Memory.load]

/-- **To start a machine from an image is to start it from the words.** -/
theorem startImage_bytes (ws : List Word) : startImage (Image.bytes ws) = start ws :=
  bootImage_bytes ..

end Machine

namespace Assembly

/-- A program that was assembled fits into the address space. -/
theorem length_words_le {source : List Char} {p : Program} (h : assemble? source = .ok p) :
    p.words.length ≤ addressSpace := by
  obtain ⟨groups, -, hp, -⟩ := assemble?_eq_ok_iff.mp h
  rw [hp.length_words]
  exact hp.sizes_le

/-- **Images lose nothing.** Words are read back from the bytes that they were written as. Bytes are
no image exactly if there is an odd number of them, and what other bytes are read as is written as
these bytes. For every source that is assembled, a machine can be started from its image, and it is
the one that is started from its program: every word of the program is at the address of its place
in the program, and zeros are at the addresses behind the last. -/
theorem startImage_assembled :
    (∀ ws, Image.words? (Image.bytes ws) = some ws) ∧
    (∀ bs, (Image.words? bs = none ↔ bs.length % 2 = 1) ∧
      ∀ ws, Image.words? bs = some ws → Image.bytes ws = bs) ∧
    ∀ source p, assemble? source = .ok p →
      ∃ bs m, assembleImage? source = .ok bs ∧ Machine.startImage bs = .ok m ∧
        Machine.start p.words = .ok m ∧
        (∀ i w, p.words[i]? = some w → i < addressSpace ∧ m.cpu.peek (UInt16.ofNat i) = some w) ∧
        ∀ addr, p.words.length ≤ addr.toNat → m.cpu.peek addr = some 0 := by
  refine ⟨Image.words?_bytes, fun bs => ⟨Image.words?_eq_none_iff, fun ws hws =>
    (Image.words?_eq_some_iff.mp hws).symm⟩, fun source p hp => ?_⟩
  have hlength := length_words_le hp
  obtain ⟨m, hm⟩ := Machine.exists_start hlength
  refine ⟨Image.bytes p.words, m, ?_, (Machine.startImage_bytes p.words).trans hm, hm, ?_, ?_⟩
  · rw [assembleImage?, hp]
    rfl
  · intro i w hw
    have hi : i < addressSpace := by
      have hlt := (List.getElem?_eq_some_iff.mp hw).1
      omega
    rw [Machine.peek_start hm, Word.toNat_ofNat_of_lt hi, hw]
    exact ⟨hi, rfl⟩
  · intro addr haddr
    rw [Machine.peek_start hm, List.getElem?_eq_none haddr]
    rfl

/-- An image of three words, which do not fill a page. -/
theorem startImage_assembled_three :
    ∃ p bs m, assemble? "copy 4.val end.imm 1.reg\n% 1234\nend:\n% abcd".toList = .ok p ∧
      assembleImage? "copy 4.val end.imm 1.reg\n% 1234\nend:\n% abcd".toList = .ok bs ∧
      bs.length = 6 ∧ Machine.startImage bs = .ok m ∧ Machine.start p.words = .ok m ∧
      m.cpu.peek 2 = some 0xABCD ∧ m.cpu.peek 3 = some 0 := by
  have hwords : (assemble? "copy 4.val end.imm 1.reg\n% 1234\nend:\n% abcd".toList).toOption.map
      (·.words) = some [0x7602, 0x1234, 0xABCD] := by
    decide +kernel
  obtain ⟨p, hp, hwords⟩ := exists_program_of_words hwords
  obtain ⟨bs, m, hbs, himage, hstart, hheld, hzero⟩ := startImage_assembled.2.2 _ p hp
  have hbytes : bs = Image.bytes p.words := by
    rw [assembleImage?, hp] at hbs
    exact (Except.ok.inj hbs).symm
  refine ⟨p, bs, m, hp, hbs, ?_, himage, hstart, (hheld 2 0xABCD ?_).2, hzero 3 ?_⟩
  · rw [hbytes, hwords]
    rfl
  · rw [hwords]
    rfl
  · rw [hwords]
    decide

end Assembly

end WordMachine
