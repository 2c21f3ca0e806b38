import WordMachine.Files.Store
import WordMachine.Session.Console

/-!
# Scenes

A scene has all that a tool can see and touch: files and a console. Over a scene, a tool is a pure
function, so what it leaves behind can be looked at and reasoned about.
-/

namespace WordMachine

/-- Files and a console. -/
structure Scene where
  files : FileTree := {}
  transcript : Transcript := {}
  deriving DecidableEq, Repr, Inhabited

namespace Scene

/-- A computation over a scene has its console. -/
instance : Console (StateM Scene) where
  write text := modify fun s => { s with transcript := s.transcript.write text }
  readLine := modifyGet fun s =>
    let (line, transcript) := s.transcript.readLine
    (line, { s with transcript := transcript })

/-- A computation over a scene has its files. -/
instance : FileStore (StateM Scene) where
  read path := return (← get).files.read path
  write path bytes := modifyGet fun s =>
    match s.files.write path bytes with
    | .ok files => (.ok (), { s with files := files })
    | .error e => (.error e, s)
  list path := return (← get).files.list path

end Scene

end WordMachine
