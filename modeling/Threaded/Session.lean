import Threaded.Command
import Threaded.Listing

/-!
# Sessions

A session is a host at work: it has a machine, and it keeps words that it has compiled in slots of
its own choice, to run them later.  It takes **turns**.  In a turn it gives a command, runs a word
it has kept, or asks something.

A turn has a **view**: the answer, the bench that is left and the names.  References are not in the
view, and neither is how many entries the ledger holds.
-/

namespace Threaded

/-- What a host asks of a machine without changing it. -/
inductive Query
  /-- The item so many places below the top. -/
  | item (index : Nat)
  | names
  /-- Whether a name can be found. -/
  | knows (name : String)
  /-- The listing of a name. -/
  | see (name : String)
  /-- The text printed so far. -/
  | console
  deriving DecidableEq, Repr

/-- What a host does at a time. -/
inductive Turn
  | obey (command : Command)
  /-- Compiles a line, and keeps its word in a slot. -/
  | keep (slot : Nat) (line : String)
  /-- Runs the word in a slot. -/
  | run (slot : Nat)
  | ask (query : Query)
  deriving DecidableEq, Repr

/-- What a host is answered, references left out. -/
inductive Answer
  | done
  | cell (value : Cell)
  /-- The code of an executed line. -/
  | code (value : Cell)
  /-- How many slots a word has, `none` if there is no word. -/
  | word (size : Option Nat)
  | item (value : Option Cell)
  | names (names : List String)
  | flag (value : Bool)
  | text (text : String)
  deriving DecidableEq, Repr

/-- A reply as it is shown. -/
def Reply.answer : Reply → Answer
  | .done | .ref _ => .done
  | .cell value => .cell value
  | .code value => .code value
  | .word compiled => .word (compiled.map fun w => w.body.size)

/-- The answer to a query. -/
def Machine.ask (m : Machine) : Query → Except Error Answer
  | .item index => .ok (.item (m.bench.stack.get? index))
  | .names => .ok (.names m.dict.names)
  | .knows name => .ok (.flag (m.dict.lookup name).isSome)
  | .see name => (m.dict.see name).map .text
  | .console => .ok (.text m.console)

/-- What a host sees of a turn. -/
structure View where
  answer : Except Error Answer
  bench : Bench
  names : List String
  deriving Repr

/-- What is seen of a machine that answers. -/
def Machine.view (m : Machine) (answer : Except Error Answer) : View :=
  ⟨answer, m.bench, m.dict.names⟩

/-- A machine, and the words that are kept. -/
structure Session where
  machine : Machine
  kept : Nat → Option Word

namespace Session

/-- A session that has not begun. -/
def start (limits : Limits) : Session :=
  ⟨Machine.boot limits, fun _ => none⟩

/-- The session with a word kept in a slot; if there is no word, the slot keeps what it has. -/
def keep (s : Session) (slot : Nat) (word : Option Word) : Session :=
  match word with
  | none => s
  | some w => { s with kept := fun k => if k = slot then some w else s.kept k }

/-- Takes a turn, `none` if something runs for more than `fuel` steps. -/
def take (fuel : Nat) (s : Session) : Turn → Option (View × Session)
  | .obey c =>
    (s.machine.obey fuel c).map fun (r, m) => (m.view (r.map Reply.answer), { s with machine := m })
  | .keep slot line =>
    match s.machine.compile line with
    | (.ok w, m) =>
      some (m.view (.ok (Reply.word w).answer), { s with machine := m }.keep slot w)
    | (.error e, m) => some (m.view (.error e), { s with machine := m })
  | .run slot =>
    match s.kept slot with
    | some w =>
      (s.machine.run fuel w).map fun (r, m) =>
        (m.view (r.map fun () => .done), { s with machine := m })
    | none => some (s.machine.view (.ok (.word none)), s)
  | .ask q => some (s.machine.view (s.machine.ask q), s)

/-- Takes turns one after the other: the views, and the session in the end. -/
def play (fuel : Nat) (s : Session) : List Turn → Option (List View × Session)
  | [] => some ([], s)
  | t :: rest =>
    match s.take fuel t with
    | none => none
    | some (v, s) => (s.play fuel rest).map fun (vs, s) => (v :: vs, s)

/-- What is seen of some turns. -/
def views (fuel : Nat) (s : Session) (turns : List Turn) : Option (List View) :=
  (s.play fuel turns).map Prod.fst

end Session

end Threaded
