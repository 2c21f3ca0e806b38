import WordMachine.Text.Line

/-!
# Paths

A path is text, cut into pieces at slashes. Its name is its last piece, unless that is one of the
two names that mean the directory itself and the one above it. The last dot of a name that is not at
its front parts the stem from the extension.

A path is followed step by step, one step for each piece that is not empty. Where it starts depends
on whether there is a slash in front of it, and a slash at its end asks for a directory.

## Main statements

* `Path.split_append`: stem and extension make up the name
* `Path.ne_empty_of_mem_steps`: no step of a path is empty
-/

namespace WordMachine

namespace Path

/-- The pieces of a path between its slashes. What is empty or stands for the directory itself is
left out, except for the directory itself at the front of a path that starts there. -/
def pieces (p : String) : List (List Char) :=
  match p.toList.splitOn '/' with
  | [] => []
  | first :: rest =>
    let isDull (piece : List Char) := piece.isEmpty || piece == ['.']
    (if first.isEmpty then [] else [first]) ++ rest.filter fun piece => !isDull piece

/-- The name at the end of a path, where there is one. -/
def name? (p : String) : Option (List Char) :=
  (pieces p).getLast?.filter fun piece => piece != ['.'] && piece != ['.', '.']

/-- The stem of a name and its extension, where it has one. -/
def split (name : List Char) : List Char × Option (List Char) :=
  if name = ['.', '.'] then (name, none)
  else
    match Text.cutLast? '.' name with
    | none | some ([], _) => (name, none)
    | some (stem, extension) => (stem, some extension)

/-- The name at the end of a path, without its extension. -/
def stem? (p : String) : Option String := (name? p).map fun name => String.ofList (split name).1

/-- The extension of the name at the end of a path. -/
def extension? (p : String) : Option String :=
  (name? p).bind fun name => (split name).2.map String.ofList

/-- A name with its extension replaced, or taken away if the new one is empty. The old one is taken
away behind its dot; if that leaves the name of the directory above, it stays. -/
def withExtension (name extension : String) : String :=
  match stem? name with
  | none => name
  | some stem =>
    if stem = "." then ".."
    else if extension.isEmpty then stem
    else stem ++ "." ++ extension

/-! ## Following a path -/

/-- The most bytes that a path may have. -/
def maxBytes : Nat := 4095

/-- The most bytes that a name may have. -/
def maxNameBytes : Nat := 255

/-- Whether a path starts at the root. -/
def startsAtRoot (p : String) : Bool := p.toList.head? == some '/'

/-- Whether a path asks for a directory. -/
def asksForDirectory (p : String) : Bool := p.toList.getLast? == some '/'

/-- The steps of a path. -/
def steps (p : String) : List String :=
  ((p.toList.splitOn '/').filter fun piece => !piece.isEmpty).map String.ofList

/-- The path that leads on from a directory. One that starts at the root leads there. -/
def join (directory p : String) : String :=
  if startsAtRoot p || directory.isEmpty then p
  else if asksForDirectory directory then directory ++ p
  else directory ++ "/" ++ p

theorem ne_empty_of_mem_steps {p step : String} (h : step ∈ steps p) : step ≠ "" := by
  obtain ⟨piece, hpiece, rfl⟩ := List.mem_map.mp h
  have hne : piece ≠ [] := by simpa using (List.mem_filter.mp hpiece).2
  exact fun he => hne (by simpa using congrArg String.toList he)

theorem split_append (name : List Char) :
    name = (split name).1 ++ ((split name).2.map ('.' :: ·)).getD [] := by
  unfold split
  split
  · simp
  · split
    · simp
    · simp
    · next h => simpa using (Text.cutLast?_eq_some_iff.mp h).1

end Path

end WordMachine
