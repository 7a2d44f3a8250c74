import Threaded.Cell

/-!
# Decimal numbers

Three spellings of a number are read here, and they differ in the signs they allow:

* a **literal** takes one sign of either kind;
* a **branch offset** takes a minus sign only, because it stands right behind a word;
* a **count** takes a plus sign only, and says what is wrong with a text that is no count.

In all of them the digits are the ten ASCII digits, there is at least one, and leading zeros
are allowed.
-/

namespace Threaded.Text.Decimal

/-- The value of a non-empty row of ASCII digits. -/
def nat? (cs : List Char) : Option Nat :=
  if !cs.isEmpty && cs.all Char.isDigit then some (Nat.ofDigitChars 10 cs 0) else none

/-- A minus sign or none, then digits. -/
def negatable? : List Char → Option Int
  | '-' :: cs => (nat? cs).map fun n => -(n : Int)
  | cs => (nat? cs).map fun n => (n : Int)

/-- One sign of either kind or none, then digits. -/
def signed? : List Char → Option Int
  | '+' :: cs => (nat? cs).map fun n => (n : Int)
  | cs => negatable? cs

/-- A literal: a signed number inside the range of cells. -/
def literal? (text : String) : Option Cell :=
  (signed? text.toList).bind Cell.ofInt?

/-- A branch offset: a number without a plus sign inside the range of cells. -/
def offset? (cs : List Char) : Option Cell :=
  (negatable? cs).bind Cell.ofInt?

/-! ## Counts -/

/-- Why a text is no count. -/
inductive CountError
  | empty
  | invalidDigit
  | tooLarge
  deriving DecidableEq, Repr

namespace CountError

/-- The error in words. -/
def message : CountError → String
  | empty => "cannot parse integer from empty string"
  | invalidDigit => "invalid digit found in string"
  | tooLarge => "number too large to fit in target type"

end CountError

/-- Counts stay below this bound. -/
def countBound : Nat := UInt64.size

/-- Reads digits behind the value `n` of those already read.  Of a bad character and a value
that has grown too large, the one met first is reported. -/
def countFrom (n : Nat) : List Char → Except CountError Nat
  | [] => .ok n
  | c :: cs =>
    if !c.isDigit then .error .invalidDigit
    else
      let n := n * 10 + (c.toNat - '0'.toNat)
      if n < countBound then countFrom n cs else .error .tooLarge

/-- A count: digits, with one plus sign in front or none. -/
def count (text : String) : Except CountError Nat :=
  match text.toList with
  | [] => .error .empty
  | ['+'] => .error .invalidDigit
  | '+' :: cs => countFrom 0 cs
  | cs => countFrom 0 cs

end Threaded.Text.Decimal
