import Threaded.Error
import Threaded.Text.Cut
import Threaded.Text.Decimal
import Threaded.Text.Run

/-!
# Tokens of a line

A line is cut into tokens at spaces and NULs; nothing else separates, so a tab is part of a
token.  Positions and lengths count the bytes of the text's encoding.  A token longer than the
longest name is an error that points at its first byte too many, and a line with such a token
has no tokens at all.

What a token stands for is decided by its text alone: the three words of the conditional, a
branch written by hand, or any other word.
-/

namespace Threaded

/-- A token and the byte it starts at. -/
structure Token where
  text : String
  pos : Nat
  deriving DecidableEq, Repr

/-- What a token stands for. -/
inductive Symbol
  | ifMark
  | elseMark
  | endMark
  /-- A jump by `offset`, written by hand. -/
  | branch (offset : Cell)
  /-- A jump by `offset` if the top of the stack is zero, written by hand. -/
  | zbranch (offset : Cell)
  /-- A word to look up, or else a number. -/
  | word (text : String)
  deriving DecidableEq, Repr

namespace Symbol

/-- The offset in `word` directly behind `stem`. -/
def offsetAfter? (stem word : List Char) : Option Cell :=
  (Text.behind? stem word).bind Text.Decimal.offset?

/-- What a text stands for as a token. -/
def ofText (text : String) : Symbol :=
  if text = "IF" then ifMark
  else if text = "ELSE" then elseMark
  else if text = "END" then endMark
  else match offsetAfter? "ZBRANCH".toList text.toList with
    | some offset => zbranch offset
    | none =>
      match offsetAfter? "BRANCH".toList text.toList with
      | some offset => branch offset
      | none => word text

end Symbol

/-- The characters that end a token. -/
def isSeparator (c : Char) : Bool :=
  c = ' ' || c = '\x00'

namespace Token

/-- The symbol of a token. -/
def symbol (t : Token) : Symbol :=
  Symbol.ofText t.text

/-- A run of characters as a token, if it is no longer than `nameLen` bytes. -/
def ofRun (nameLen : Nat) (r : Text.Run Char) : Except Error Token :=
  if r.width Char.utf8Size ≤ nameLen then .ok ⟨String.ofList r.items, r.pos⟩
  else .error (.tokenTooLong (r.pos + nameLen))

end Token

/-- The runs of a line: its tokens, whatever their length. -/
def lineRuns (line : String) : List (Text.Run Char) :=
  Text.runs Char.utf8Size isSeparator 0 line.toList

/-- All tokens of a line, or the error of the first one that is too long. -/
def tokenize (nameLen : Nat) (line : String) : Except Error (List Token) :=
  (lineRuns line).mapM (Token.ofRun nameLen)

end Threaded
