import WordMachine.Word

/-!
# Program images

A program is kept on disk as a sequence of bytes, two to a word, the low byte first. An odd number
of bytes is no image.

## Main statements

* `Image.words?_bytes`: an image that was written is read back
-/

namespace WordMachine

namespace Image

/-- The word with the given low and high bytes. -/
def word (low high : UInt8) : Word := UInt16.ofNat (low.toNat + 256 * high.toNat)

/-- The bytes of a word, the low one first. -/
def wordBytes (w : Word) : List UInt8 := [UInt8.ofNat w.toNat, UInt8.ofNat (w.toNat / 256)]

/-- The bytes that hold a list of words. -/
def bytes (ws : List Word) : List UInt8 := ws.flatMap wordBytes

/-- Reads words off the bytes, behind the words `done` that were read before, latest first. -/
def wordsAfter (done : List Word) : List UInt8 → Option (List Word)
  | [] => some done.reverse
  | [_] => none
  | low :: high :: rest => wordsAfter (word low high :: done) rest

/-- The words held in `bs`, if its bytes pair up. -/
def words? (bs : List UInt8) : Option (List Word) := wordsAfter [] bs

/-- Overwrites the front of a buffer with the words held in the bytes. The flag tells whether all
bytes were used: a last byte without a partner is not. -/
def fill : List Word → List UInt8 → Bool × List Word
  | buffer, [] => (true, buffer)
  | _ :: ws, low :: high :: rest =>
    let filled := fill ws rest
    (filled.1, word low high :: filled.2)
  | buffer, _ => (false, buffer)

@[simp] theorem word_wordBytes (w : Word) :
    word (UInt8.ofNat w.toNat) (UInt8.ofNat (w.toNat / 256)) = w := by
  have h := Word.toNat_lt w
  apply UInt16.toNat_inj.mp
  simp only [word, UInt8.toNat_ofNat', UInt16.toNat_ofNat']
  omega

theorem wordsAfter_bytes (done ws : List Word) :
    wordsAfter done (bytes ws) = some (done.reverse ++ ws) := by
  induction ws generalizing done with
  | nil => simp [bytes, wordsAfter]
  | cons w ws ih =>
    have step : bytes (w :: ws) =
        UInt8.ofNat w.toNat :: UInt8.ofNat (w.toNat / 256) :: bytes ws := rfl
    rw [step, wordsAfter, ih, word_wordBytes]
    simp

/-- Reading an image gives back the words that were written. -/
@[simp] theorem words?_bytes (ws : List Word) : words? (bytes ws) = some ws := by
  simp [words?, wordsAfter_bytes]

end Image

end WordMachine
