import WordMachine.Assembly.Error

/-!
# Tokens

A line of source is cut into tokens at white space and at comments. There are three sorts of
comment: `#` and all that follows it, everything from a slash to the next slash, and a quote with
the word it stands before. A token remembers the place where it begins.
-/

namespace WordMachine

namespace Assembly

namespace Token

/-- What a scan is in the middle of. -/
inductive Scanning where
  /-- White space. -/
  | gap
  /-- A token that began at a column, its characters so far latest first. -/
  | token (col : Nat) (seen : List Char)
  /-- A comment between slashes, which began at a column with the given end of the line. -/
  | inline (col : Nat) (fromSlash : List Char)
  /-- A commented word. -/
  | word
  deriving DecidableEq, Repr, Inhabited

/-- The tokens found, latest first, once the token under way has ended. -/
def Scanning.flush (line : Nat) (found : List Token) : Scanning → List Token
  | token col seen => ⟨⟨line, col⟩, seen.reverse⟩ :: found
  | _ => found

/-- Where a scan that stands before a token, or inside one, is after a character. -/
def Scanning.next (col : Nat) (c : Char) (rest : List Char) : Scanning → Scanning
  | inline start fromSlash => if c = '/' then gap else inline start fromSlash
  | word => if Text.isBlank c then gap else word
  | state =>
    if c = '/' then inline col (c :: rest)
    else if c = '\'' then word
    else if Text.isBlank c then gap
    else match state with
      | token start seen => token start (c :: seen)
      | _ => token col [c]

/-- Whether a scan is outside of every comment. -/
def Scanning.isOpen : Scanning → Bool
  | gap => true
  | token _ _ => true
  | _ => false

/-- Scans the rest of a line from a column on. -/
def scanFrom (line col : Nat) (found : List Token) (state : Scanning) :
    List Char → Checked (List Token)
  | [] =>
    match state with
    | .inline start fromSlash =>
      .error ⟨⟨line, start⟩, .malformed (Text.trimEnd fromSlash) .openComment⟩
    | state => .ok (state.flush line found).reverse
  | c :: rest =>
    if state.isOpen && c == '#' then .ok (state.flush line found).reverse
    else
      let next := state.next col c rest
      let found := match next with
        | .token _ _ => found
        | _ => state.flush line found
      scanFrom line (col + 1) found next rest

/-- The tokens of a line. -/
def scan (line : Nat) (t : List Char) : Checked (List Token) := scanFrom line 1 [] .gap t

end Token

end Assembly

end WordMachine
