import Threaded.Error

/-!
# Primitives

A primitive is what a word does when it is not made of other words.  There are three kinds:
the one that does nothing, the operations of the standard set, and the services by which a
host lets words reach back into it.  They are data, so two primitives can be compared, and
what each of them does is said where the state it works on is defined.
-/

namespace Threaded

/-- The operations of the standard set. -/
inductive Op
  | add
  | sub
  | mul
  | div
  | mod
  | neg
  | eq
  | lt
  | gt
  | not
  | dup
  | drop
  | swap
  | over
  /-- Takes the top and prints it. -/
  | printTop
  /-- Prints the whole stack and leaves it. -/
  | printStack
  deriving DecidableEq, Repr

/-- What a host can offer behind a word. -/
inductive Service
  /-- Pushes the reference through which it was called. -/
  | self
  | push (value : Cell)
  /-- Pushes the depth of the stack before the push. -/
  | depth
  /-- Empties the stack. -/
  | clear
  | print (text : String)
  /-- Takes `n` and pushes the item `n` places below the top. -/
  | pick
  | fail (error : Error)
  /-- Assembles and runs a line; a failure of either kind is its own. -/
  | eval (line : String)
  /-- Executes a line and pushes its code; an error raised while it runs is its own. -/
  | exec (line : String)
  /-- Takes a number and defines `name` as that number. -/
  | define (name : String)
  deriving DecidableEq, Repr

/-- What a word does when it is not made of other words. -/
inductive Primitive
  | nop
  | op (op : Op)
  | service (service : Service)
  deriving DecidableEq, Repr

/-- The names of the standard set, in the order in which they are loaded. -/
def standardWords : List (String × Op) :=
  [("ADD", .add), ("SUB", .sub), ("MUL", .mul), ("DIV", .div), ("MOD", .mod), ("NEG", .neg),
    ("=", .eq), ("<", .lt), (">", .gt), ("NOT", .not), ("DUP", .dup), ("DROP", .drop),
    ("SWAP", .swap), ("OVER", .over), (".", .printTop), (".S", .printStack)]

end Threaded
