import WordMachine.Text.Line

/-!
# Arguments of a command line

Options may stand anywhere among the other arguments, each at most once. A long option has two
dashes or more in front, and takes its value behind an equals sign or as the next argument; what is
behind the equals sign of an option without a value is passed over. Short options may be written
together; the last of them may take a value, from what is left of the argument, or else as the next
one. A value in the same argument may have any number of equals signs in front. One that is the next
argument may not look like an option. Two dashes alone end the options.

## Main statements

* `Arguments.read_of_plain`: arguments without a dash in front are taken as they are
* `Arguments.nodup_of_read`: no option is given twice
-/

namespace WordMachine

/-- An option of a command. -/
structure OptionSpec where
  short : Char
  long : String
  takesValue : Bool := false
  deriving DecidableEq, Repr, Inhabited

/-- What is wrong with a command line. -/
inductive UsageError where
  | unknownOption (text : String)
  | missingValue (option : String)
  | repeatedOption (option : String)
  | missingArgument (what : String)
  | extraArgument (text : String)
  | badValue (option reason : String)
  | unknownCommand (text : String)
  deriving DecidableEq, Repr, Inhabited

/-- The wording of an error. -/
def UsageError.message : UsageError → String
  | unknownOption text => "there is no option '" ++ text ++ "'"
  | missingValue option => "the option '--" ++ option ++ "' needs a value"
  | repeatedOption option => "the option '--" ++ option ++ "' is given more than once"
  | missingArgument what => "there is no " ++ what
  | extraArgument text => "there is no use for '" ++ text ++ "'"
  | badValue option reason => "the value of '--" ++ option ++ "' is wrong: " ++ reason
  | unknownCommand text => "there is no command '" ++ text ++ "'"

/-- The arguments of a command line, sorted. -/
structure Arguments where
  /-- The long names of the options, each with its value if it takes one. -/
  options : List (String × Option String) := []
  /-- What is not an option. -/
  plain : List String := []
  deriving DecidableEq, Repr, Inhabited

namespace Arguments

/-- The arguments behind some options. -/
def withOptions (a : Arguments) (options : List (String × Option String)) : Arguments :=
  { a with options := options ++ a.options }

/-- The arguments behind a plain one. -/
def withPlain (a : Arguments) (text : String) : Arguments := { a with plain := text :: a.plain }

/-- Whether an option was given. -/
def has (a : Arguments) (name : String) : Bool := (a.options.lookup name).isSome

/-- The value of an option, where it was given. -/
def value? (a : Arguments) (name : String) : Option String := (a.options.lookup name).join

/-- What one argument says by itself. -/
inductive Piece where
  /-- That options end here. -/
  | lastOption
  | plain
  | options (given : List (String × Option String))
  /-- Some options, and behind them one whose value is the next argument. -/
  | awaiting (given : List (String × Option String)) (name : String)
  deriving DecidableEq, Repr, Inhabited

/-- The piece with an option put in front of it. -/
def Piece.withFlag (name : String) : Piece → Piece
  | .options given => .options ((name, none) :: given)
  | .awaiting given last => .awaiting ((name, none) :: given) last
  | piece => piece

/-- A value in the same argument as its option. -/
def attachedValue (text : List Char) : String := String.ofList (text.dropWhile fun c => c == '=')

/-- What the letters of short options say. -/
def readShort (specs : List OptionSpec) : List Char → Except UsageError Piece
  | [] => .ok (.options [])
  | c :: rest =>
    match specs.find? fun spec => spec.short == c with
    | none => .error (.unknownOption (String.ofList ['-', c]))
    | some spec =>
      if spec.takesValue then
        if rest.isEmpty then .ok (.awaiting [] spec.long)
        else .ok (.options [(spec.long, some (attachedValue rest))])
      else (readShort specs rest).map (·.withFlag spec.long)

/-- What the text of a long option says, from its dashes on. -/
def readLong (specs : List OptionSpec) (text : List Char) : Except UsageError Piece :=
  let body := text.dropWhile fun c => c == '-'
  let (name, value) := match Text.cutFirst? '=' body with
    | some (name, value) => (String.ofList name, some (attachedValue value))
    | none => (String.ofList body, none)
  match specs.find? fun spec => spec.long == name with
  | none => .error (.unknownOption (String.ofList text))
  | some spec =>
    if spec.takesValue then
      match value with
      | none => .ok (.awaiting [] name)
      | some value => .ok (.options [(name, some value)])
    else .ok (.options [(name, none)])

/-- What an argument says by itself. -/
def readPiece (specs : List OptionSpec) (text : String) : Except UsageError Piece :=
  match text.toList with
  | ['-', '-'] => .ok .lastOption
  | '-' :: '-' :: body => readLong specs ('-' :: '-' :: body)
  | '-' :: c :: rest => readShort specs (c :: rest)
  | _ => .ok .plain

/-- Whether an argument may be the value of the option before it. -/
def canBeValue (text : String) : Bool := text == "-" || text.toList.head? != some '-'

/-- The arguments of a command line, whatever options it repeats. -/
def sort (specs : List OptionSpec) : List String → Except UsageError Arguments
  | [] => .ok {}
  | text :: rest =>
    match readPiece specs text with
    | .error e => .error e
    | .ok .lastOption => .ok { plain := rest }
    | .ok .plain => (sort specs rest).map (·.withPlain text)
    | .ok (.options given) => (sort specs rest).map (·.withOptions given)
    | .ok (.awaiting given name) =>
      match rest with
      | [] => .error (.missingValue name)
      | value :: rest =>
        if canBeValue value then
          (sort specs rest).map (·.withOptions (given ++ [(name, some value)]))
        else .error (.missingValue name)

/-- The first name that comes again. -/
def repeated? : List String → Option String
  | [] => none
  | name :: rest => if name ∈ rest then some name else repeated? rest

/-- The arguments of a command line. -/
def read (specs : List OptionSpec) (texts : List String) : Except UsageError Arguments :=
  match sort specs texts with
  | .error e => .error e
  | .ok a =>
    match repeated? (a.options.map Prod.fst) with
    | some name => .error (.repeatedOption name)
    | none => .ok a

theorem readPiece_of_plain (specs : List OptionSpec) {text : String}
    (h : text.toList.head? ≠ some '-') : readPiece specs text = .ok .plain := by
  unfold readPiece
  split <;> simp_all

theorem sort_of_plain (specs : List OptionSpec) {texts : List String}
    (h : ∀ text ∈ texts, text.toList.head? ≠ some '-') :
    sort specs texts = .ok { plain := texts } := by
  induction texts with
  | nil => rfl
  | cons text rest ih =>
    rw [sort, readPiece_of_plain specs (h text (by simp)), ih fun t ht => h t (by simp [ht])]
    rfl

theorem read_of_plain (specs : List OptionSpec) {texts : List String}
    (h : ∀ text ∈ texts, text.toList.head? ≠ some '-') :
    read specs texts = .ok { plain := texts } := by
  rw [read, sort_of_plain specs h]
  rfl

theorem repeated?_eq_none_iff {names : List String} : repeated? names = none ↔ names.Nodup := by
  induction names with
  | nil => simp [repeated?]
  | cons name rest ih =>
    rw [repeated?, List.nodup_cons]
    split <;> simp_all

theorem nodup_of_read {specs : List OptionSpec} {texts : List String} {a : Arguments}
    (h : read specs texts = .ok a) : (a.options.map Prod.fst).Nodup := by
  unfold read at h
  split at h
  · cases h
  · split at h
    · cases h
    · next hnone =>
      cases h
      exact repeated?_eq_none_iff.mp hnone

end Arguments

end WordMachine
