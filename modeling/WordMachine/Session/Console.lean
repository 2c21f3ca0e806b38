/-!
# Consoles

What talks to its user does so over a console, which takes text to be shown and hands out the lines
that are typed. The programs here are written for any monad with a console, so the same definition
runs at a terminal and over a transcript, where all that was shown can be looked at.

## Main statements

* `Transcript.shown_write`, `Transcript.shown_writeLine`: text is shown in the order in which it
  is written
-/

namespace WordMachine

/-- A place to show text and to read lines. -/
class Console (m : Type → Type) where
  /-- Shows a text. -/
  write : String → m Unit
  /-- Takes the next line, without its end, unless there are no more. -/
  readLine : m (Option (List Char))

namespace Console

variable {m : Type → Type} [Console m]

/-- Shows a text on a line of its own. -/
def writeLine (text : String) : m Unit := write (text ++ "\n")

/-- A dash in each of so many columns. -/
def rule (columns : Nat) : String := String.ofList (List.replicate columns '-')

/-- Shows a text in bold letters of a colour, which has a number. -/
def bold (colour : Nat) (text : String) : String :=
  "\x1b[1;" ++ toString colour ++ "m" ++ text ++ "\x1b[0m"

/-- Shows a text in bold green letters. -/
def green (text : String) : String := bold 32 text

/-- Shows a text in bold red letters. -/
def red (text : String) : String := bold 31 text

/-- A text with spaces behind it, as many as fill up the columns. -/
def padRight (columns : Nat) (text : String) : String :=
  text ++ String.ofList (List.replicate (columns - text.length) ' ')

/-- A text with spaces before it, as many as fill up the columns. -/
def padLeft (columns : Nat) (text : String) : String :=
  String.ofList (List.replicate (columns - text.length) ' ') ++ text

/-- A computation with a state of its own shares the console. -/
instance {σ : Type} [Monad m] : Console (StateT σ m) where
  write text := StateT.lift (write text)
  readLine := StateT.lift readLine

/-- A computation that may fail shares the console. -/
instance {ε : Type} [Monad m] : Console (ExceptT ε m) where
  write text := ExceptT.lift (write text)
  readLine := ExceptT.lift readLine

end Console

/-- What was shown on a console, and what is still to be typed. -/
structure Transcript where
  input : List (List Char) := []
  /-- The texts that were shown, the last one first. -/
  output : List String := []
  deriving DecidableEq, Repr, Inhabited

namespace Transcript

/-- All that was shown. -/
def shown (t : Transcript) : String := String.join t.output.reverse

/-- The transcript after a text was shown. -/
def write (t : Transcript) (text : String) : Transcript := { t with output := text :: t.output }

/-- The next line to be typed, and the transcript after it. -/
def readLine (t : Transcript) : Option (List Char) × Transcript :=
  match t.input with
  | [] => (none, t)
  | line :: rest => (some line, { t with input := rest })

theorem shown_write (t : Transcript) (text : String) :
    (t.write text).shown = t.shown ++ text := by
  simp [shown, write, String.join, List.foldl_append]

/-- A computation over a transcript has it for a console. -/
instance : Console (StateM Transcript) where
  write text := modify fun t => t.write text
  readLine := modifyGet readLine

theorem shown_writeLine (t : Transcript) (text : String) :
    ((Console.writeLine text : StateM Transcript Unit).run t).2.shown
      = t.shown ++ text ++ "\n" := by
  change (t.write (text ++ "\n")).shown = _
  rw [shown_write, String.append_assoc]

end Transcript

end WordMachine
