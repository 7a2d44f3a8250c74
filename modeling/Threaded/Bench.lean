import Threaded.Primitive
import Threaded.Stack

/-!
# The bench

The bench is what the operations work on: the data stack and the text printed so far.  An
action on it either gives a value or fails, and in both cases leaves a bench behind: what was
taken off the stack before a failure stays off.

The actions of the standard set stand here too.  Each of them takes all its operands before it
does anything else, the topmost first.
-/

namespace Threaded

/-- The data stack and the text printed so far. -/
structure Bench where
  stack : Stack Cell
  console : String
  deriving DecidableEq, Repr

namespace Bench

/-- A bench with nothing on it. -/
def fresh (capacity : Nat) : Bench :=
  ⟨Stack.empty capacity, ""⟩

/-- An action on the bench. -/
abbrev Action (α : Type) := ExceptT Error (StateM Bench) α

/-- Does an action: what came of it, and the bench it leaves. -/
def perform {α : Type} (b : Bench) (x : Action α) : Except Error α × Bench :=
  x.run.run b

/-! ## Elementary actions -/

/-- Puts a value on the stack. -/
def push (n : Cell) : Action Unit := do
  match (← get).stack.push n with
  | .ok stack => modify ({ · with stack })
  | .error e => throw e

/-- Takes the top of the stack. -/
def pop : Action Cell := do
  match (← get).stack.pop with
  | .ok (n, stack) =>
    modify ({ · with stack })
    return n
  | .error e => throw e

/-- The item `i` places below the top, which must be there. -/
def peek (i : Nat) : Action Cell := do
  match (← get).stack.get? i with
  | some n => return n
  | none => throw .stackUnderflow

/-- Puts a text behind what was printed. -/
def print (text : String) : Action Unit :=
  modify fun b => { b with console := b.console ++ text }

/-- Empties the stack. -/
def clear : Action Unit :=
  modify fun b => { b with stack := b.stack.clear }

/-! ## The standard set -/

/-- Replaces the top by `f` of it. -/
def unary (f : Cell → Cell) : Action Unit := do
  let a ← pop
  push (f a)

/-- Replaces the two topmost items by `f a b`, where `b` is the top. -/
def binary (f : Cell → Cell → Cell) : Action Unit := do
  let b ← pop
  let a ← pop
  push (f a b)

/-- Like `binary`, for an `f` that is not to be asked about a zero on top. -/
def dividing (f : Cell → Cell → Cell) : Action Unit := do
  let b ← pop
  let a ← pop
  if b = 0 then throw .divisionByZero else push (f a b)

/-- The stack in one line: its depth between angle brackets, then its items, bottom first. -/
def stackLine (s : Stack Cell) : String :=
  "<" ++ s.depth.repr ++ ">" ++ String.join (s.toList.map fun n => " " ++ n.render) ++ "\n"

/-- What each operation of the standard set does. -/
def act : Op → Action Unit
  | .add => binary (· + ·)
  | .sub => binary (· - ·)
  | .mul => binary (· * ·)
  | .div => dividing (· / ·)
  | .mod => dividing (· % ·)
  | .neg => unary (- ·)
  | .eq => binary fun a b => Cell.ofBool (a = b)
  | .lt => binary fun a b => Cell.ofBool (a < b)
  | .gt => binary fun a b => Cell.ofBool (b < a)
  | .not => unary fun a => Cell.ofBool (a = 0)
  | .dup => do push (← peek 0)
  | .drop => do
    let _ ← pop
    return ()
  | .swap => do
    let b ← pop
    let a ← pop
    push b
    push a
  | .over => do push (← peek 1)
  | .printTop => do
    let a ← pop
    print (a.render ++ " ")
  | .printStack => do print (stackLine (← get).stack)

end Bench

end Threaded
