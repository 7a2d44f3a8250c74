import Threaded.Cell
import Threaded.Text.Quote

/-!
# What can go wrong

An error is a cause, found in one of four places: cutting a line into tokens, assembling the
tokens, running a word, or a request of the host.  Two readings of a cause are fixed here: its
message, and for the causes that blame a place in a line also a **code**, an integer that
carries the place alone.

A too long token is blamed by a byte offset, which is written as it is; a bad token is blamed
by its index `k`, written `-(k + 1)`.  The second never is positive, so the two kinds of blame
and the zero of a line that succeeded can be told apart.
-/

namespace Threaded

/-- A reference to a dictionary entry: its index in the ledger. -/
abbrev Ref := Nat

/-- The causes of failure. -/
inductive Error
  /-- A token goes on past the longest name; `offset` is the first byte too many. -/
  | tokenTooLong (offset : Nat)
  /-- The token at `index` is no word, no number and no branch. -/
  | unresolvedSymbol (index : Nat) (name : String)
  /-- The token at `index` is an ELSE or an END that no IF waits for. -/
  | unmatchedElseOrEnd (index : Nat)
  /-- After `count` tokens the line ends with an IF that waits for its END. -/
  | danglingIf (count : Nat)
  /-- The branch in slot `index` goes to `target`, which is no position of the word. -/
  | jumpOutOfBounds (index : Nat) (target : Cell)
  | stackUnderflow
  | stackOverflow
  /-- A call would be the `depth`-th nested one. -/
  | recursionLimitExceeded (depth : Nat)
  /-- A reference that points past the end of the ledger. -/
  | invalidEntry (ref : Ref)
  /-- A name that can be no token. -/
  | invalidName (name : String)
  | unknownWord (name : String)
  | divisionByZero
  deriving DecidableEq, Repr

namespace Error

/-- The message of a cause. -/
def message : Error → String
  | tokenTooLong offset => "token too long at offset " ++ offset.repr
  | unresolvedSymbol index name => "unresolved symbol " ++ name ++ " at token " ++ index.repr
  | unmatchedElseOrEnd index => "ELSE or END without IF at token " ++ index.repr
  | danglingIf count => "IF without END after " ++ count.repr ++ " tokens"
  | jumpOutOfBounds index target =>
    "branch at " ++ index.repr ++ " lands outside the word (" ++ target.render ++ ")"
  | stackUnderflow => "StackUnderflow"
  | stackOverflow => "StackOverflow"
  | recursionLimitExceeded depth => "nesting depth " ++ depth.repr ++ " exceeds the limit"
  | invalidEntry ref => "invalid entry EntryRef(" ++ ref.repr ++ ")"
  | invalidName name => "invalid name " ++ Text.Quote.quoted name
  | unknownWord name => "unknown word " ++ name
  | divisionByZero => "division by zero"

/-- The code that blames the token at `index`. -/
def indexCode (index : Nat) : Cell :=
  -(Cell.ofCount index + 1)

/-- The code of a cause that blames a place in a line. -/
def code : Error → Option Cell
  | tokenTooLong offset => some (Cell.ofCount offset)
  | unresolvedSymbol index _ => some (indexCode index)
  | unmatchedElseOrEnd index => some (indexCode index)
  | danglingIf count => some (indexCode count)
  | jumpOutOfBounds index _ => some (indexCode index)
  | _ => none

/-- The outcome of a line that could not be compiled: the code of the cause, if it has one. -/
def folded (e : Error) : Except Error Cell :=
  match e.code with
  | some code => .ok code
  | none => .error e

end Error

end Threaded
