import Threaded.Console
import Threaded.Options

/-!
# The program

The program reads its options, boots a machine with the standard set, executes the lines given
as options, holds a conversation unless it is told not to, and tears the machine down.  It fails
with one code if its options are bad and with another if the machine cannot be loaded or one of
the given lines failed; what happens in the conversation does not matter to the code.
-/

namespace Threaded

/-- What the program leaves behind. -/
structure Output where
  exit : Nat
  transcript : Transcript
  deriving DecidableEq, Repr

/-- What the options ask for. -/
structure Settings where
  limits : Limits
  filter : Log.Filter
  /-- The lines to execute before the conversation. -/
  lines : List String
  /-- Whether to leave the conversation out. -/
  quiet : Bool
  deriving DecidableEq, Repr

namespace Settings

/-- The end of a program whose options are bad. -/
def refusal (message : String) : Output :=
  ⟨2, .err (message ++ "\n")⟩

/-- The end of a program that only explains itself. -/
def explanation : Output :=
  ⟨0, .out usage⟩

/-- The log filter; without the option, warnings and errors. -/
def filterOf (o : Options) : Except Output Log.Filter :=
  let text := (o.value? .log).getD "warn"
  match Log.Filter.ofText text with
  | .ok f => .ok f
  | .error e => .error (refusal ("-l " ++ text ++ ": " ++ e.message))

/-- The count given for an option. -/
def countOf (o : Options) (s : Switch) (default : Nat) : Except Output Nat :=
  match o.value? s with
  | none => .ok default
  | some text =>
    match Text.Decimal.count text with
    | .ok n => .ok n
    | .error e => .error (refusal ("-" ++ s.label ++ " " ++ text ++ ": " ++ e.message))

/-- The limits, read in the order in which they are listed. -/
def limitsOf (o : Options) : Except Output Limits := do
  let default : Limits := {}
  let stackSize ← countOf o .stackSize default.stackSize
  let nameLen ← countOf o .nameLen default.nameLen
  let maxDepth ← countOf o .maxDepth default.maxDepth
  return { stackSize, nameLen, maxDepth }

/-- What the arguments ask for, or the end of the program. -/
def ofArguments (args : List String) : Except Output Settings :=
  match Options.ofArguments args with
  | .error e => .error (refusal e.message)
  | .ok o =>
    if o.has .help then .error explanation
    else do
      let filter ← filterOf o
      let limits ← limitsOf o
      return { limits, filter, lines := o.values .line, quiet := o.has .quiet }

end Settings

namespace Program

/-- The line of one event, if the filter lets it through. -/
def note (f : Log.Filter) (e : Log.Event) : Transcript :=
  .log (#[e].filter f.admits)

/-- Executes the given lines.  Only failures are reported, on the stream of errors. -/
def executeAll (f : Log.Filter) (fuel : Nat) (m : Machine) :
    List String → Option (Bool × Transcript × Machine)
  | [] => some (false, {}, m)
  | line :: rest =>
    match Console.execute f fuel m line with
    | none => none
    | some (r, t, m) =>
      let said := match report r with
        | some text => t ++ .err (text ++ "\n")
        | none => t
      (executeAll f fuel m rest).map fun (failed, u, m) =>
        ((report r).isSome || failed, said ++ u, m)

/-- The conversation, unless the settings leave it out. -/
def conversation (s : Settings) (fuel : Nat) (m : Machine) (input : List UInt8) :
    Option (Transcript × Machine) :=
  if s.quiet then some ({}, m)
  else Console.converse s.filter fuel m (Console.lines input)

/-- What the program does with a machine that is loaded. -/
def work (s : Settings) (fuel : Nat) (m : Machine) (input : List UInt8) : Option Output :=
  match executeAll s.filter fuel m s.lines with
  | none => none
  | some (failed, t, m) =>
    (conversation s fuel m input).map fun (u, m) =>
      ⟨if failed then 1 else 0, t ++ u ++ note s.filter (.teardown m.dict.size)⟩

/-- The whole program, `none` if a line runs for more than `fuel` steps. -/
def run (fuel : Nat) (args : List String) (input : List UInt8) : Option Output :=
  match Settings.ofArguments args with
  | .error o => some o
  | .ok s =>
    let m := Machine.boot s.limits
    let created := note s.filter (.created m.limits)
    match m.load with
    | (.error e, _) => some ⟨1, created ++ .err ("error: " ++ e.message ++ "\n")⟩
    | (.ok (), m) =>
      (work s fuel m input).map fun o => { o with transcript := created ++ o.transcript }

/-- Whether the program reads any input. -/
def readsInput (args : List String) : Bool :=
  match Settings.ofArguments args with
  | .ok s => !s.quiet
  | .error _ => false

end Program

end Threaded
