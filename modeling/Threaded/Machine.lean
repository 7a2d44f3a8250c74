import Threaded.Bench
import Threaded.Dict
import Threaded.Token.Lexer

/-!
# The machine

A machine is a dictionary, a bench and the limits it was booted with.  It boots with one word,
NOP, whose reference is kept apart from its name: the assembler puts that reference wherever an
END stands, so a later word of the same name does not get there.

Names are checked when they are registered: a name must be able to stand in a line as a token.
-/

namespace Threaded

/-- The limits of a machine, fixed when it boots. -/
structure Limits where
  /-- How many items the data stack holds. -/
  stackSize : Nat := 1024
  /-- The longest token, in bytes. -/
  nameLen : Nat := 31
  /-- The deepest nested call. -/
  maxDepth : Nat := 256
  deriving DecidableEq, Repr

namespace Limits

/-- Limits under which a too long token never is blamed at byte zero, the code of success. -/
def raised (l : Limits) : Limits :=
  { l with nameLen := max l.nameLen 1 }

/-- The limits as they are shown. -/
def inspect (l : Limits) : String :=
  "Config \x7b stack_size: " ++ l.stackSize.repr ++ ", name_len: " ++ l.nameLen.repr
    ++ ", max_depth: " ++ l.maxDepth.repr ++ " \x7d"

end Limits

/-- The reference of the NOP that every machine boots with. -/
def nop : Ref := 0

/-- A dictionary, a bench and the limits of both. -/
structure Machine where
  limits : Limits
  dict : Dict
  bench : Bench
  deriving DecidableEq, Repr

namespace Machine

/-- A machine that knows NOP alone and has nothing on its bench.  It boots under all limits,
since allocation is idealised (`Stack.empty`); with the places of the stack reserved in advance it
would not boot for a `stackSize` of `2 ^ 60` or more. -/
def boot (limits : Limits) : Machine where
  limits := limits.raised
  dict := Dict.empty.register (.primitive "NOP" .nop)
  bench := Bench.fresh limits.stackSize

/-- The machine after an action on its bench. -/
def perform {α : Type} (m : Machine) (x : Bench.Action α) : Except Error α × Machine :=
  let (r, bench) := m.bench.perform x
  (r, { m with bench })

/-- The machine with an entry more. -/
def register (m : Machine) (e : Entry) : Machine :=
  { m with dict := m.dict.register e }

/-- Binds a name to a primitive. -/
def defword (m : Machine) (name : String) (action : Primitive) : Except Error Ref × Machine :=
  if isName m.limits.nameLen name then
    (.ok m.dict.size, m.register (.primitive name action))
  else (.error (.invalidName name), m)

/-- Binds names to operations, in order, up to the first that is refused. -/
def defwords (m : Machine) : List (String × Op) → Except Error Unit × Machine
  | [] => (.ok (), m)
  | (name, op) :: rest =>
    match m.defword name (.op op) with
    | (.ok _, m) => m.defwords rest
    | (.error e, m) => (.error e, m)

/-- Loads the standard set. -/
def load (m : Machine) : Except Error Unit × Machine :=
  m.defwords standardWords

/-- The text printed so far. -/
def console (m : Machine) : String :=
  m.bench.console

/-- The machine with nothing printed. -/
def clearConsole (m : Machine) : Machine :=
  { m with bench := { m.bench with console := "" } }

end Machine

end Threaded
