import Threaded.Thread

/-!
# The log

What a machine does can be followed through **events**.  They are no part of the machine: the
events of a piece of work are a function of the machine it starts from, computed by following
the same assembly and the same steps.  So a machine that is being watched and one that is not
are the same machine.

An event belongs to a source, has a level, and is written as one line.
-/

namespace Threaded.Log

/-- How much an event matters, from most to least. -/
inductive Level
  | error
  | warn
  | info
  | debug
  | trace
  deriving DecidableEq, Repr

namespace Level

/-- How many levels matter at least as much. -/
def rank : Level → Nat
  | error => 1
  | warn => 2
  | info => 3
  | debug => 4
  | trace => 5

/-- The level in five columns. -/
def label : Level → String
  | error => "ERROR"
  | warn => " WARN"
  | info => " INFO"
  | debug => "DEBUG"
  | trace => "TRACE"

end Level

/-- Something a machine did. -/
inductive Event
  | created (limits : Limits)
  | compiled (tokens slots : Nat)
  | compileFailed (error : Error) (source : String)
  | executionFailed (error : Error)
  /-- An entry is about to act in slot `ip` at nesting `depth`. -/
  | next (ip depth : Nat) (entry : Entry)
  /-- A branch in slot `ip` was followed, or found to be good. -/
  | jump (ip target : Nat)
  | teardown (entries : Nat)
  deriving DecidableEq, Repr

namespace Event

/-- How much an event matters. -/
def level : Event → Level
  | created _ | teardown _ => .info
  | compiled _ _ | compileFailed _ _ | executionFailed _ => .debug
  | next _ _ _ | jump _ _ => .trace

/-- The source an event belongs to. -/
def source : Event → String
  | created _ | compileFailed _ _ | executionFailed _ | teardown _ => "afi::state"
  | compiled _ _ => "afi::compile"
  | next _ _ _ | jump _ _ => "afi::vm"

/-- What happened, with its particulars. -/
def text : Event → String
  | created limits => "state created config=" ++ limits.inspect
  | compiled tokens slots => "compiled line tokens=" ++ tokens.repr ++ " len=" ++ slots.repr
  | compileFailed error source =>
    "compile failed error=" ++ error.message ++ " source=" ++ Text.Quote.quoted source
  | executionFailed error => "execution failed error=" ++ error.message
  | next ip depth entry =>
    "next ip=" ++ ip.repr ++ " depth=" ++ depth.repr ++ " entry=" ++ entry.inspect
  | jump ip target => "jump ip=" ++ ip.repr ++ " target=" ++ target.repr
  | teardown entries => "teardown entries=" ++ entries.repr

/-- An event as a line. -/
def line (e : Event) : String :=
  e.level.label ++ " " ++ e.source ++ ": " ++ e.text ++ "\n"

end Event

/-! ## The events of a line

Events come in the order in which things happen, so a piece of work that fails gives the events
up to its failure. -/

/-- The events of checking the slots from `ip` on. -/
def checkEvents (d : Dict) (len : Nat) : Nat → List Ref → List Event
  | _, [] => []
  | ip, r :: rs =>
    match (d.get? r).map Entry.offset? with
    | none => []
    | some none => checkEvents d len (ip + 1) rs
    | some (some offset) =>
      match Jump.target ip offset len with
      | .error _ => []
      | .ok target => .jump ip target :: checkEvents d len (ip + 1) rs

/-- The events of checking a body. -/
def bodyEvents (d : Dict) (body : Array Ref) : List Event :=
  checkEvents d body.size 0 body.toList

/-- The events of compiling a line. -/
def compileEvents (m : Machine) (source : String) : List Event :=
  match tokenize m.limits.nameLen source with
  | .error e => [.compileFailed e source]
  | .ok [] => []
  | .ok tokens =>
    match (Assembly.start m.dict tokens.length).addAll (tokens.map Token.symbol) with
    | (.error e, _) => [.compileFailed e source]
    | (.ok (), a) =>
      let checks := if a.flow.items.isEmpty then bodyEvents a.dict a.code else []
      match a.finish with
      | .error e => checks ++ [.compileFailed e source]
      | .ok w => checks ++ [.compiled tokens.length w.body.size]

/-- The events of following a branch, if it can be followed. -/
def jumpEvents (ip : Nat) (offset : Cell) (len : Nat) : List Event :=
  match Jump.target ip offset len with
  | .error _ => []
  | .ok target => [.jump ip target]

/-- The events of one step.  What a service does by itself is not followed. -/
def stepEvents (t : Thread) : List Event :=
  match t.frames with
  | .code body ip depth :: _ =>
    match body[ip]?.bind t.machine.dict.get? with
    | none => []
    | some e =>
      let jumps := match e with
        | .branch offset => jumpEvents ip offset body.size
        | .zbranch offset =>
          if t.machine.bench.stack.top? = some 0 then jumpEvents ip offset body.size else []
        | _ => []
      .next ip depth e :: jumps
  | _ => []

/-- The events of a run of at most `fuel` steps that pass `keep`, behind those before it. -/
def runEvents (keep : Event → Bool) : Nat → Thread → Array Event → Array Event
  | 0, _, log => log
  | fuel + 1, t, log =>
    let log := log ++ (stepEvents t).filter keep
    match t.step with
    | .next t => runEvents keep fuel t log
    | .done (.ok ()) _ => log
    | .done (.error e) _ => log ++ [Event.executionFailed e].filter keep

/-- The events of executing a line that pass `keep`. -/
def execEvents (keep : Event → Bool) (fuel : Nat) (m : Machine) (line : String) : Array Event :=
  let log := ((compileEvents m line).filter keep).toArray
  match m.compile line with
  | (.ok (some w), m) =>
    let log := log ++ (bodyEvents m.dict w.body).filter keep
    match m.framesOf w with
    | .error _ => log
    | .ok frames => runEvents keep fuel ⟨m, frames⟩ log
  | _ => log

end Threaded.Log
