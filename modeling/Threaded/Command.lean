import Threaded.Thread

/-!
# Commands

Everything a host can do to a machine that may change it, as data.  A machine is **reachable** if
some sequence of commands leads to it from the boot, whatever the commands answered on the way.
What a machine can do depends on what its host has asked of it, on the primitives it has bound
above all, so reachability is relative to a set of commands.

Only a command that runs something needs fuel; one that runs out of it has no outcome.
-/

namespace Threaded

/-- What a host asks of a machine. -/
inductive Command
  /-- Loads the standard set. -/
  | load
  | define (name source : String)
  | defword (name : String) (action : Primitive)
  | compile (line : String)
  | run (word : Word)
  | eval (line : String)
  | exec (line : String)
  | execBytes (bytes : List UInt8)
  | push (value : Cell)
  | pop
  /-- Empties the stack. -/
  | clear
  | print (text : String)
  | clearConsole
  deriving DecidableEq, Repr

namespace Command

/-- The primitives a command binds besides the standard set. -/
def primitives : Command → List Primitive
  | .defword _ action => [action]
  | _ => []

/-- The commands that bind allowed primitives only. -/
def Binds (allowed : Primitive → Prop) (c : Command) : Prop :=
  ∀ p ∈ c.primitives, allowed p

/-- A command that binds no primitive is always allowed. -/
theorem Binds.of_primitives_eq_nil {allowed : Primitive → Prop} {c : Command}
    (h : c.primitives = []) : c.Binds allowed := by
  intro p hp
  rw [h] at hp
  exact absurd hp List.not_mem_nil

end Command

/-- What a machine answers to a command that succeeds. -/
inductive Reply
  | done
  | cell (value : Cell)
  /-- The code of an executed line. -/
  | code (value : Cell)
  | ref (ref : Ref)
  /-- A compiled line, `none` if it was blank. -/
  | word (word : Option Word)
  deriving DecidableEq, Repr

/-- What comes of a command, and the machine it leaves. -/
abbrev Outcome := Except Error Reply × Machine

namespace Outcome

/-- An outcome whose value is answered by `f`. -/
def of {α : Type} (f : α → Reply) (r : Except Error α × Machine) : Outcome :=
  (r.1.map f, r.2)

/-- An outcome without a value. -/
def ofUnit (r : Except Error Unit × Machine) : Outcome :=
  of (fun () => .done) r

end Outcome

namespace Machine

/-- The outcome of a command, `none` if something runs for more than `fuel` steps. -/
def obey (fuel : Nat) (m : Machine) : Command → Option Outcome
  | .load => some (.ofUnit m.load)
  | .define name source => some (.of .ref (m.define name source))
  | .defword name action => some (.of .ref (m.defword name action))
  | .compile line => some (.of .word (m.compile line))
  | .run word => (m.run fuel word).map .ofUnit
  | .eval line => (m.eval fuel line).map .ofUnit
  | .exec line => (m.exec fuel line).map (.of .code)
  | .execBytes bytes => (m.execBytes fuel bytes).map (.of .code)
  | .push value => some (.ofUnit (m.perform (Bench.push value)))
  | .pop => some (.of .cell (m.perform Bench.pop))
  | .clear => some (.ofUnit (m.perform Bench.clear))
  | .print text => some (.ofUnit (m.perform (Bench.print text)))
  | .clearConsole => some (.ok .done, m.clearConsole)

/-- The machines that allowed commands can lead to from the boot. -/
inductive Reachable (allowed : Command → Prop) : Machine → Prop
  | boot (limits : Limits) : Reachable allowed (boot limits)
  | obey (fuel : Nat) {m m' : Machine} {c : Command} {r : Except Error Reply} :
    Reachable allowed m → allowed c → m.obey fuel c = some (r, m') → Reachable allowed m'

/-- A loaded machine is reachable if loading is allowed. -/
theorem Reachable.load {allowed : Command → Prop} (h : allowed .load) (limits : Limits) :
    Reachable allowed (Machine.boot limits).load.2 :=
  .obey 0 (.boot limits) h rfl

end Machine

end Threaded
