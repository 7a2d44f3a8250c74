import Threaded.Listing
import Threaded.Log.Filter
import Threaded.Report
import Threaded.Text.Blank

/-!
# The console

A console reads lines and answers each of them.  Three requests only look at the machine; every
other line is executed.  An executed line is answered by what it prints, followed by its report,
or by a word that all is well.

Input is bytes.  A line ends at a line feed, and what is left behind the last one is a line too
unless it is empty.  A line that is not UTF-8 ends the console on the spot.
-/

namespace Threaded

/-- What is said on the two streams. -/
structure Transcript where
  stdout : String := ""
  stderr : String := ""
  deriving DecidableEq, Repr

namespace Transcript

/-- One transcript behind another. -/
def append (a b : Transcript) : Transcript :=
  ⟨a.stdout ++ b.stdout, a.stderr ++ b.stderr⟩

instance : Append Transcript := ⟨append⟩

/-- Text on the first stream alone. -/
def out (text : String) : Transcript := { stdout := text }

/-- Text on the second stream alone. -/
def err (text : String) : Transcript := { stderr := text }

/-- The lines of some events. -/
def log (events : Array Log.Event) : Transcript :=
  err (String.join (events.toList.map Log.Event.line))

end Transcript

namespace Console

/-- What a line asks for. -/
inductive Request
  /-- The data stack. -/
  | stack
  /-- The names that can be found. -/
  | words
  /-- What stands behind a name. -/
  | see (name : String)
  /-- The execution of the line. -/
  | exec (line : String)
  deriving DecidableEq, Repr

/-- What a line asks for; the line is executed as it is, blanks included. -/
def Request.ofLine (line : String) : Request :=
  let command := Text.trimmed line
  if command = ".s" then .stack
  else if command = ".words" then .words
  else match Text.behind? ".see ".toList command.toList with
    | some name => .see (Text.trimmed (String.ofList name))
    | none => .exec line

/-- The data stack in brackets, bottom first. -/
def stackText (s : Stack Cell) : String :=
  "[" ++ ", ".intercalate (s.toList.map Cell.render) ++ "]\n"

/-- The names that can be found, newest first. -/
def wordsText (d : Dict) : String :=
  " ".intercalate d.words ++ "\n"

/-- The listing of a name. -/
def seeText (d : Dict) (name : String) : String :=
  match d.see name with
  | .ok text => text
  | .error e => "error: " ++ e.message ++ "\n"

/-- The events of executing a line that a filter lets through. -/
def lineLog (f : Log.Filter) (fuel : Nat) (m : Machine) (line : String) : Transcript :=
  if f.followsLines then .log (Log.execEvents f.admits fuel m line) else {}

/-- Executes a line: its outcome, the transcript of its execution, and the machine it leaves,
with nothing left on its console. -/
def execute (f : Log.Filter) (fuel : Nat) (m : Machine) (line : String) :
    Option (Except Error Cell × Transcript × Machine) :=
  (m.exec fuel line).map fun (r, after) =>
    (r, lineLog f fuel m line ++ .out after.console, after.clearConsole)

/-- Answers a request. -/
def answer (f : Log.Filter) (fuel : Nat) (m : Machine) : Request → Option (Transcript × Machine)
  | .stack => some (.out (stackText m.bench.stack), m)
  | .words => some (.out (wordsText m.dict), m)
  | .see name => some (.out (seeText m.dict name), m)
  | .exec line =>
    (execute f fuel m line).map fun (r, t, m) =>
      (t ++ .out ((report r).getD " ok" ++ "\n"), m)

/-! ## A whole conversation -/

/-- The lines of the input. -/
def lines (input : List UInt8) : List (List UInt8) :=
  let parts := Text.partsAt 0x0A input
  if parts.getLast? = some [] then parts.dropLast else parts

/-- Whether a byte belongs to the end of a line. -/
def isLineEnd (b : UInt8) : Bool :=
  b = 0x0D || b = 0x0A

/-- A line as text, without what ends it. -/
def lineText? (line : List UInt8) : Option String :=
  (Text.Utf8.decode? (Text.dropEnd isLineEnd line)).map String.ofList

/-- What is said when the input is over. -/
def farewell : String := "CTRL-D\n"

/-- What is said about a line that is not UTF-8. -/
def unreadable : String :=
  "Error: Io(Error \x7b kind: InvalidData, message: "
    ++ "\"stream did not contain valid UTF-8\" \x7d)\n"

/-- Answers lines until they end or one cannot be read. -/
def converse (f : Log.Filter) (fuel : Nat) (m : Machine) :
    List (List UInt8) → Option (Transcript × Machine)
  | [] => some (.out farewell, m)
  | line :: rest =>
    match lineText? line with
    | none => some (.out unreadable, m)
    | some text =>
      match answer f fuel m (Request.ofLine text) with
      | none => none
      | some (t, m) => (converse f fuel m rest).map fun (u, m) => (t ++ u, m)

end Console

end Threaded
