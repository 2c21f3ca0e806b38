import WordMachine.Files.Path

/-!
# Files

What works on files is written for any monad with a store of them, so that the same definition runs
on a disk and on a tree of files that is a value.

In a tree every file and directory is kept under the names that lead to it from the root. The parent
of the root is the root. A path is followed from the root or from the directory that is worked in,
and the first step that cannot be taken tells why the whole path leads nowhere.

## Main statements

* `FileTree.node?_put`: what is put under a path is found there, and all else is as it was
* `FileTree.read_write`: bytes that were written to a file are read back from it
* `FileTree.write_of_asksForDirectory`: a path that asks for a directory is not written to
-/

namespace WordMachine

/-- Why a file or directory cannot be used. -/
inductive FileError where
  | missing
  | notDirectory
  | isDirectory
  /-- Its path, or a name on the way, has too many bytes. -/
  | nameTooLong
  /-- No path has a null character in it. -/
  | nullInPath
  /-- It was to be text, and its bytes are none. -/
  | notText
  /-- Any other reason, in words. -/
  | other (reason : String)
  deriving DecidableEq, Repr, Inhabited

/-- The wording of an error. -/
def FileError.message : FileError → String
  | missing => "No such file or directory (os error 2)"
  | notDirectory => "Not a directory (os error 20)"
  | isDirectory => "Is a directory (os error 21)"
  | nameTooLong => "File name too long (os error 36)"
  | nullInPath => "file name contained an unexpected NUL byte"
  | notText => "stream did not contain valid UTF-8"
  | other reason => reason

/-- What an entry of a directory is. -/
inductive EntryKind where
  | file
  | directory
  | other
  deriving DecidableEq, Repr, Inhabited

/-- A place that keeps files. -/
class FileStore (m : Type → Type) where
  /-- The bytes of a file. -/
  read : String → m (Except FileError (List UInt8))
  /-- Keeps bytes in a file, which is made if need be. -/
  write : String → List UInt8 → m (Except FileError Unit)
  /-- The names of the entries of a directory, and what they are. -/
  list : String → m (Except FileError (List (String × EntryKind)))

namespace FileStore

variable {m : Type → Type} [Monad m] [FileStore m]

/-- The text that some bytes are in UTF-8. -/
def text? (bs : List UInt8) : Except FileError String :=
  match String.fromUTF8? ⟨bs.toArray⟩ with
  | some text => .ok text
  | none => .error .notText

/-- The text in a file. -/
def readText (path : String) : m (Except FileError String) := do
  return (← read path) >>= text?

end FileStore

/-- What is kept under a path. -/
inductive FileNode where
  | file (bytes : List UInt8)
  | directory
  deriving DecidableEq, Repr, Inhabited

/-- What sort of entry it is. -/
def FileNode.kind : FileNode → EntryKind
  | file _ => .file
  | directory => .directory

/-- Files and directories, under the names that lead to them. -/
structure FileTree where
  nodes : List (List String × FileNode) := []
  /-- The names that lead to the directory that is worked in. -/
  home : List String := []
  deriving DecidableEq, Repr, Inhabited

namespace FileTree

/-- What is kept under some names. -/
def node? (t : FileTree) : List String → Option FileNode
  | [] => some .directory
  | names => t.nodes.lookup names

/-- The tree with something kept under some names. -/
def put (t : FileTree) (names : List String) (node : FileNode) : FileTree :=
  { t with nodes := (names, node) :: t.nodes.filter fun entry => entry.1 != names }

/-- The tree with something kept under some names, and with the directories that lead there. -/
def grow (t : FileTree) (names : List String) (node : FileNode) : FileTree :=
  let t := (List.range names.length).foldl (fun t depth =>
    let above := names.take depth
    if (t.node? above).isSome then t else t.put above .directory) t
  t.put names node

/-- Where a path leads. -/
inductive Target where
  | node (names : List String) (node : FileNode)
  /-- To a place in a directory that is free. -/
  | free (names : List String)
  deriving DecidableEq, Repr, Inhabited

/-- Where some steps lead from a directory. Only a directory can be stepped out of. -/
def walk (t : FileTree) (above : List String) : List String → Except FileError Target
  | [] => .ok (.node above .directory)
  | "." :: rest => t.walk above rest
  | ".." :: rest => t.walk above.dropLast rest
  | name :: rest =>
    if Path.maxNameBytes < name.utf8ByteSize then .error .nameTooLong
    else
      match t.node? (above ++ [name]), rest with
      | some .directory, _ => t.walk (above ++ [name]) rest
      | some (.file bytes), [] => .ok (.node (above ++ [name]) (.file bytes))
      | some (.file _), _ => .error .notDirectory
      | none, [] => .ok (.free (above ++ [name]))
      | none, _ => .error .missing

/-- What is wrong with a path wherever it leads. -/
def refusal? (path : String) : Option FileError :=
  if path.toList.contains '\x00' then some .nullInPath
  else if path.isEmpty then some .missing
  else if Path.maxBytes < path.utf8ByteSize then some .nameTooLong
  else none

/-- Where some steps lead from where a path starts. -/
def walkFrom (t : FileTree) (path : String) (steps : List String) : Except FileError Target :=
  match refusal? path with
  | some e => .error e
  | none => t.walk (if Path.startsAtRoot path then [] else t.home) steps

/-- Where a path leads. -/
def follow (t : FileTree) (path : String) : Except FileError Target :=
  t.walkFrom path (Path.steps path ++ if Path.asksForDirectory path then ["."] else [])

/-- The bytes of a file. -/
def read (t : FileTree) (path : String) : Except FileError (List UInt8) :=
  match t.follow path with
  | .ok (.node _ (.file bytes)) => .ok bytes
  | .ok (.node _ .directory) => .error .isDirectory
  | .ok (.free _) => .error .missing
  | .error e => .error e

/-- The tree with some bytes kept in a file. A path that asks for a directory is none to write to,
be there something at its end or not. -/
def write (t : FileTree) (path : String) (bytes : List UInt8) : Except FileError FileTree :=
  if Path.asksForDirectory path then
    match t.walkFrom path ((Path.steps path).dropLast ++ ["."]) with
    | .ok _ => .error .isDirectory
    | .error e => .error e
  else
    match t.walkFrom path (Path.steps path) with
    | .ok (.node _ .directory) => .error .isDirectory
    | .ok (.node names _) | .ok (.free names) => .ok (t.put names (.file bytes))
    | .error e => .error e

/-- The entries of a directory. -/
def list (t : FileTree) (path : String) : Except FileError (List (String × EntryKind)) :=
  match t.follow path with
  | .ok (.node names .directory) =>
    .ok (t.nodes.filterMap fun (under, node) =>
      match under.getLast? with
      | some name => if under.dropLast = names then some (name, node.kind) else none
      | none => none)
  | .ok (.node _ (.file _)) => .error .notDirectory
  | .ok (.free _) => .error .missing
  | .error e => .error e

theorem lookup_filter_ne {nodes : List (List String × FileNode)} {names other : List String}
    (h : other ≠ names) :
    (nodes.filter fun entry => entry.1 != names).lookup other = nodes.lookup other := by
  induction nodes with
  | nil => rfl
  | cons entry nodes ih =>
    obtain ⟨under, node⟩ := entry
    by_cases hu : under = names
    · subst hu
      have hb : (other == under) = false := by simpa using h
      simp [List.lookup_cons, ih, hb]
    · have : (under != names) = true := by simp [hu]
      rw [List.filter_cons_of_pos (by simpa using this), List.lookup_cons, List.lookup_cons, ih]

theorem node?_put (t : FileTree) {names : List String} (h : names ≠ []) (node : FileNode)
    (other : List String) :
    (t.put names node).node? other = if other = names then some node else t.node? other := by
  cases other with
  | nil => simp [node?, Ne.symm h]
  | cons name rest =>
    by_cases he : name :: rest = names
    · simp [node?, put, he]
    · have hb : (name :: rest == names) = false := by simpa using he
      simp [node?, put, List.lookup_cons, hb, he, lookup_filter_ne he]

/-- The names that a path leads to, unless it leads to a directory. -/
def Target.names? : Target → Option (List String)
  | .node _ .directory => none
  | .node names (.file _) => some names
  | .free names => some names

theorem node?_of_walk {t : FileTree} {above steps names : List String} {target : Target}
    (h : t.walk above steps = .ok target) (hn : target.names? = some names) :
    names ≠ [] ∧ t.node? names ≠ some .directory := by
  fun_induction walk t above steps with
  | case1 =>
    cases h
    cases hn
  | case2 _ _ ih | case3 _ _ ih => exact ih h
  | case5 _ _ _ _ _ _ _ ih => exact ih h
  | case6 _ _ _ _ _ _ hfile =>
    cases h
    cases hn
    simp [hfile]
  | case8 _ _ _ _ _ hfree =>
    cases h
    cases hn
    simp [hfree]
  | case4 | case7 | case9 => cases h

/-- A path that led to a file or to a free place leads to the file that is put there. -/
theorem walk_put {t : FileTree} {above steps names : List String} {target : Target}
    (h : t.walk above steps = .ok target) (hn : target.names? = some names)
    (bytes : List UInt8) :
    (t.put names (.file bytes)).walk above steps = .ok (.node names (.file bytes)) := by
  obtain ⟨hne, hdir⟩ := node?_of_walk h hn
  fun_induction walk t above steps with
  | case1 =>
    cases h
    cases hn
  | case2 _ _ ih | case3 _ _ ih =>
    rw [walk]
    exact ih h
  | case5 above name _ _ _ hshort hnode ih =>
    have hother : above ++ [name] ≠ names := fun he => hdir (he ▸ hnode)
    have hput := node?_put t hne (.file bytes) (above ++ [name])
    rw [if_neg hother, hnode] at hput
    rw [walk]
    · exact (if_neg hshort).trans (ih h)
    all_goals assumption
  | case6 | case8 =>
    cases h
    cases hn
    have hput := node?_put t hne (.file bytes)
    simp_all [walk]
  | case4 | case7 | case9 => cases h

theorem read_write {t after : FileTree} {path : String} {bytes : List UInt8}
    (h : t.write path bytes = .ok after) : after.read path = .ok bytes := by
  unfold write at h
  split at h
  · split at h <;> cases h
  · next hslash =>
    have key {target : Target} {names : List String}
        (hw : t.walkFrom path (Path.steps path) = .ok target)
        (hn : target.names? = some names) (ha : after = t.put names (.file bytes)) :
        after.read path = .ok bytes := by
      have hfollow : after.follow path = .ok (.node names (.file bytes)) := by
        unfold walkFrom at hw
        split at hw
        · cases hw
        · next hfit =>
          rw [follow, if_neg hslash, List.append_nil, walkFrom, hfit, ha]
          exact walk_put hw hn bytes
      simp [read, hfollow]
    split at h
    · cases h
    · next names node hnode hw =>
      cases h
      cases node with
      | file => exact key hw rfl rfl
      | directory => exact absurd rfl hnode
    · next hw =>
      cases h
      exact key hw rfl rfl
    · cases h

/-- What a slash at the end asks for is never written to. -/
theorem write_of_asksForDirectory {path : String} (h : Path.asksForDirectory path = true)
    (t after : FileTree) (bytes : List UInt8) : t.write path bytes ≠ .ok after := by
  unfold write
  rw [if_pos h]
  split <;> simp

end FileTree

end WordMachine
