import Threaded.Assembly
import Threaded.Line

/-!
# Running words

A run is a **thread**: a machine and a stack of frames.  A frame is a word in progress, with the
position of its next slot and the number of calls it is nested in.  One step looks at the frame
on top.  If its position is past its last slot the frame is done and goes; otherwise the entry in
its next slot acts.

A call opens a frame one level deeper, and there is a limit to the levels.  A service may open
frames too, at level zero: a line it executes is nested in nothing.  A frame can also be an
answer that waits until the frames above it are done, and is then pushed.

The first error ends the thread, whatever frames are left; what was done until then stays done.
-/

namespace Threaded

/-- A part of a run that is not done. -/
inductive Frame
  /-- A word that goes on with the slot `ip`, nested in `depth` calls. -/
  | code (body : Array Ref) (ip depth : Nat)
  /-- A value to push. -/
  | answer (value : Cell)
  deriving DecidableEq, Repr

/-- A run in progress; the innermost frame is first. -/
structure Thread where
  machine : Machine
  frames : List Frame
  deriving DecidableEq, Repr

/-- What a step comes to. -/
inductive Step
  | next (thread : Thread)
  /-- The run is over. -/
  | done (result : Except Error Unit) (machine : Machine)

namespace Machine

/-- The frames of a word that is to be run, if its references and branches are good. -/
def framesOf (m : Machine) (w : Word) : Except Error (List Frame) :=
  (Jump.check m.dict w.body).map fun () => [.code w.body 0 0]

/-- The frames of a line that is to be evaluated. -/
def evalFrames (m : Machine) (line : String) : Except Error (List Frame) × Machine :=
  match m.compile line with
  | (.error e, m) => (.error e, m)
  | (.ok none, m) => (.ok [], m)
  | (.ok (some w), m) => (m.framesOf w, m)

/-- The frames of a line that is to be executed and to answer with its code. -/
def execFrames (m : Machine) (line : String) : Except Error (List Frame) × Machine :=
  match m.compile line with
  | (.error e, m) => (e.folded.map fun code => [.answer code], m)
  | (.ok none, m) => (.ok [.answer 0], m)
  | (.ok (some w), m) => ((m.framesOf w).map (· ++ [.answer 0]), m)

/-- An action on the bench that opens no frame. -/
def act (m : Machine) (x : Bench.Action Unit) : Except Error (List Frame) × Machine :=
  let (r, m) := m.perform x
  (r.map fun () => [], m)

/-- Takes `n` and pushes the item `n` places below the top. -/
def pick : Bench.Action Unit := do
  let n ← Bench.pop
  if n < 0 then throw .stackUnderflow
  else
    let a ← Bench.peek n.toInt.toNat
    Bench.push a

/-- What a service does when it is called through the reference `r`: the frames it opens. -/
def serve (m : Machine) (r : Ref) : Service → Except Error (List Frame) × Machine
  | .self => m.act (Bench.push (Cell.ofCount r))
  | .push value => m.act (Bench.push value)
  | .depth => m.act (Bench.push (Cell.ofCount m.bench.stack.depth))
  | .clear => m.act Bench.clear
  | .print text => m.act (Bench.print text)
  | .pick => m.act pick
  | .fail e => (.error e, m)
  | .eval line => m.evalFrames line
  | .exec line => m.execFrames line
  | .define name =>
    match m.perform Bench.pop with
    | (.error e, m) => (.error e, m)
    | (.ok n, m) =>
      let (r, m) := m.define name n.render
      (r.map fun _ => [], m)

/-- What a primitive does when it is called through the reference `r`. -/
def call (m : Machine) (r : Ref) : Primitive → Except Error (List Frame) × Machine
  | .nop => (.ok [], m)
  | .op op => m.act (Bench.act op)
  | .service s => m.serve r s

end Machine

namespace Thread

/-- The step to `frames`, unless something went wrong. -/
def goOn (r : Except Error (List Frame) × Machine) (rest : List Frame) : Step :=
  match r with
  | (.ok frames, m) => .next ⟨m, frames ++ rest⟩
  | (.error e, m) => .done (.error e) m

/-- The frame that goes on at the target of a branch in slot `ip`. -/
def jump (body : Array Ref) (ip depth : Nat) (offset : Cell) : Except Error (List Frame) :=
  (Jump.target ip offset body.size).map fun t => [.code body t depth]

/-- The entry `e`, referred to as `r`, acts in slot `ip` of a word. -/
def enter (m : Machine) (body : Array Ref) (ip depth : Nat) (r : Ref) (rest : List Frame) :
    Entry → Step
  | .literal value => goOn (m.act (Bench.push value)) (.code body (ip + 1) depth :: rest)
  | .primitive _ action => goOn (m.call r action) (.code body (ip + 1) depth :: rest)
  | .compound w =>
    if m.limits.maxDepth < depth + 1 then
      .done (.error (.recursionLimitExceeded (depth + 1))) m
    else .next ⟨m, .code w.body 0 (depth + 1) :: .code body (ip + 1) depth :: rest⟩
  | .branch offset => goOn (jump body ip depth offset, m) rest
  | .zbranch offset =>
    match m.perform Bench.pop with
    | (.error e, m) => .done (.error e) m
    | (.ok n, m) =>
      if n = 0 then goOn (jump body ip depth offset, m) rest
      else .next ⟨m, .code body (ip + 1) depth :: rest⟩

/-- One step of a run. -/
def step (t : Thread) : Step :=
  match t.frames with
  | [] => .done (.ok ()) t.machine
  | .answer value :: rest => goOn (t.machine.act (Bench.push value)) rest
  | .code body ip depth :: rest =>
    match body[ip]? with
    | none => .next { t with frames := rest }
    | some r =>
      match t.machine.dict.entry r with
      | .error e => .done (.error e) t.machine
      | .ok e => enter t.machine body ip depth r rest e

/-- Runs a thread to its end, `none` if that takes more than `fuel` steps. -/
def finish : Nat → Thread → Option (Except Error Unit × Machine)
  | 0, _ => none
  | fuel + 1, t =>
    match t.step with
    | .next t => finish fuel t
    | .done r m => some (r, m)

end Thread

namespace Machine

/-- Runs a word; nothing happens if one of its references or branches is bad. -/
def run (fuel : Nat) (m : Machine) (w : Word) : Option (Except Error Unit × Machine) :=
  match m.framesOf w with
  | .error e => some (.error e, m)
  | .ok frames => Thread.finish fuel ⟨m, frames⟩

/-- Compiles a line and runs it. -/
def eval (fuel : Nat) (m : Machine) (line : String) : Option (Except Error Unit × Machine) :=
  match m.compile line with
  | (.error e, m) => some (.error e, m)
  | (.ok none, m) => some (.ok (), m)
  | (.ok (some w), m) => m.run fuel w

/-- Compiles a line and runs it.  A failure to compile is folded into the code, an error raised
while the line runs stays an error. -/
def exec (fuel : Nat) (m : Machine) (line : String) : Option (Except Error Cell × Machine) :=
  match m.compile line with
  | (.error e, m) => some (e.folded, m)
  | (.ok none, m) => some (.ok 0, m)
  | (.ok (some w), m) => (m.run fuel w).map fun (r, m) => (r.map fun () => 0, m)

/-- Executes a line that comes as bytes. -/
def execBytes (fuel : Nat) (m : Machine) (bytes : List UInt8) :
    Option (Except Error Cell × Machine) :=
  match Line.ofBytes m.limits.nameLen bytes with
  | .ok line => m.exec fuel line
  | .error e => some (e.folded, m)

end Machine

end Threaded
