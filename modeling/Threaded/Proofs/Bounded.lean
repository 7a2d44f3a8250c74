import Threaded.Proofs.Coupling
import Threaded.Proofs.Steps

/-!
# Stacks stay bounded

The stack of a machine is one for as many items as the limit says with which the machine was booted
(`Machine.Bounded`), and it never holds more.  It is what the actions on a bench are made of that
has to be looked at: a push and a pop do not change how many items fit (`elementary_holding`).
Everything else that a primitive, a step, a run or a command does either is such an action or leaves
the bench alone.  So the stack is bounded at every point of every run (`Leads.bounded`) and on every
reachable machine (`Reachable.bounded`), whatever the host has bound.
-/

namespace Threaded

namespace Bench

/-! ## How many items fit -/

/-- The same bench, with a stack for `n` items. -/
def Holding (n : Nat) (b b' : Bench) : Prop :=
  b = b' ∧ b.stack.capacity = n

/-- **No action changes how many items fit.** -/
theorem elementary_holding (n : Nat) : Elementary (Holding n) fun _ => False where
  push v := by
    rintro b _ ⟨rfl, hb⟩
    refine .inr ⟨rfl, rfl, ?_⟩
    rw [perform_push]
    split
    · next stack hpush => exact (Stack.capacity_of_push hpush).trans hb
    · exact hb
  pop := by
    rintro b _ ⟨rfl, hb⟩
    refine .inr ⟨rfl, rfl, ?_⟩
    rw [perform_pop]
    split
    · next v stack hpop => exact (Stack.capacity_of_pop hpop).trans hb
    · exact hb
  print text := by
    rintro b _ ⟨rfl, hb⟩
    exact .inr ⟨rfl, rfl, hb⟩
  items b b' h := by rw [h.1]

/-- Clearing keeps the number of places. -/
theorem inStep_clear_holding (n : Nat) : InStep (Holding n) (fun _ => False) clear := by
  rintro b _ ⟨rfl, hb⟩
  exact .inr ⟨rfl, rfl, (Stack.capacity_clear _).trans hb⟩

/-- Picking an item keeps the number of places. -/
theorem inStep_pick_holding (n : Nat) : InStep (Holding n) (fun _ => False) Machine.pick := by
  have h := elementary_holding n
  refine h.pop.bind fun i => ?_
  split
  · exact .throw _
  · exact (h.peek _).bind h.push

end Bench

/-! ## Bounded machines -/

namespace Machine

/-- The stack is one for as many items as the limit says. -/
def Bounded (m : Machine) : Prop :=
  m.bench.stack.capacity = m.limits.stackSize

namespace Bounded

variable {m m' : Machine}

/-- **The stack holds no more than the limit says.** -/
theorem depth_le (h : m.Bounded) : m.bench.stack.depth ≤ m.limits.stackSize := by
  have hsum : m.bench.stack.items.length + m.bench.stack.room = m.limits.stackSize := h
  show m.bench.stack.items.length ≤ m.limits.stackSize
  omega

/-- There is no room left when there are as many items as the limit says. -/
theorem room_eq_zero_iff (h : m.Bounded) :
    m.bench.stack.room = 0 ↔ m.bench.stack.depth = m.limits.stackSize := by
  have hsum : m.bench.stack.items.length + m.bench.stack.room = m.limits.stackSize := h
  show m.bench.stack.room = 0 ↔ m.bench.stack.items.length = m.limits.stackSize
  omega

/-- The stack is as large as the limits say when a machine boots. -/
theorem boot (limits : Limits) : (boot limits).Bounded :=
  Stack.capacity_empty _

/-- An action that keeps the number of places keeps the bound. -/
theorem perform {α : Type} (h : m.Bounded) {x : Bench.Action α}
    (hx : ∀ n, Bench.InStep (Bench.Holding n) (fun _ => False) x) :
    (m.perform x).2.Bounded := by
  rcases hx _ m.bench m.bench ⟨rfl, h⟩ with ⟨_, _, hnever⟩ | ⟨_, hheld⟩
  · exact hnever.elim
  · exact hheld.2

/-- The action of a primitive keeps the bound. -/
theorem act (h : m.Bounded) {x : Bench.Action Unit}
    (hx : ∀ n, Bench.InStep (Bench.Holding n) (fun _ => False) x) : (m.act x).2.Bounded :=
  h.perform hx

/-- A push keeps the bound. -/
theorem push (h : m.Bounded) (v : Cell) : (m.act (Bench.push v)).2.Bounded :=
  h.act fun n => (Bench.elementary_holding n).push v

/-- A pop keeps the bound. -/
theorem pop (h : m.Bounded) : (m.perform Bench.pop).2.Bounded :=
  h.perform fun n => (Bench.elementary_holding n).pop

/-- Compiling a line keeps the bound. -/
theorem compile (h : m.Bounded) (line : String) : (m.compile line).2.Bounded := by
  unfold Bounded
  rw [bench_compile, limits_compile]
  exact h

/-- A definition keeps the bound. -/
theorem define (h : m.Bounded) (name source : String) : (m.define name source).2.Bounded := by
  have hcompile := h.compile source
  unfold Machine.define
  split
  · generalize m.compile source = o at hcompile ⊢
    obtain ⟨e | w, m'⟩ := o <;> exact hcompile
  · exact h

/-- Binding a name keeps the bound. -/
theorem defword (h : m.Bounded) (name : String) (action : Primitive) :
    (m.defword name action).2.Bounded := by
  unfold Machine.defword
  split <;> exact h

/-- Binding names in turn keeps the bound. -/
theorem defwords : (words : List (String × Op)) → {m : Machine} → m.Bounded →
    (m.defwords words).2.Bounded
  | [], _, h => h
  | (name, op) :: rest, m, h => by
    have hfirst := h.defword name (.op op)
    unfold Machine.defwords
    generalize m.defword name (.op op) = o at hfirst ⊢
    obtain ⟨e | r, m'⟩ := o
    · exact hfirst
    · exact defwords rest hfirst

/-- Opening the frames of a line that is evaluated keeps the bound. -/
theorem evalFrames (h : m.Bounded) (line : String) : (m.evalFrames line).2.Bounded := by
  have hcompile := h.compile line
  unfold Machine.evalFrames
  generalize m.compile line = o at hcompile ⊢
  obtain ⟨e | (_ | w), m'⟩ := o <;> exact hcompile

/-- Opening the frames of a line that is executed keeps the bound. -/
theorem execFrames (h : m.Bounded) (line : String) : (m.execFrames line).2.Bounded := by
  have hcompile := h.compile line
  unfold Machine.execFrames
  generalize m.compile line = o at hcompile ⊢
  obtain ⟨e | (_ | w), m'⟩ := o <;> exact hcompile

/-- **Whatever a service does**, the stack stays bounded. -/
theorem serve (h : m.Bounded) (r : Ref) (s : Service) : (m.serve r s).2.Bounded := by
  cases s with
  | self | push | depth => exact h.push _
  | clear => exact h.act Bench.inStep_clear_holding
  | print text => exact h.act fun n => (Bench.elementary_holding n).print text
  | pick => exact h.act Bench.inStep_pick_holding
  | fail e => exact h
  | eval line => exact h.evalFrames line
  | exec line => exact h.execFrames line
  | define name =>
    have hpop := h.pop
    rw [Machine.serve]
    generalize m.perform Bench.pop = o at hpop ⊢
    obtain ⟨e | n, m'⟩ := o
    · exact hpop
    · exact hpop.define name n.render

/-- A call keeps the bound, whatever the primitive does. -/
theorem call (h : m.Bounded) (r : Ref) (action : Primitive) : (m.call r action).2.Bounded := by
  cases action with
  | nop => exact h
  | op op => exact h.act fun n => (Bench.elementary_holding n).act op
  | service s => exact h.serve r s

end Bounded

end Machine

namespace Thread

variable {m : Machine} {t t' : Thread}

/-- The action of an entry keeps the bound. -/
theorem enter_bounded (h : m.Bounded) (body : Array Ref) (ip depth : Nat) (r : Ref)
    (rest : List Frame) (e : Entry) : (enter m body ip depth r rest e).machine.Bounded := by
  cases e with
  | literal value =>
    rw [enter, machine_goOn]
    exact h.push value
  | primitive name action =>
    rw [enter, machine_goOn]
    exact h.call r action
  | compound w =>
    rw [enter]
    split <;> exact h
  | branch offset =>
    rw [enter, machine_goOn]
    exact h
  | zbranch offset =>
    have hpop := h.pop
    rw [enter]
    generalize m.perform Bench.pop = o at hpop ⊢
    obtain ⟨e | n, m'⟩ := o
    · exact hpop
    · dsimp only
      split
      · rw [machine_goOn]
        exact hpop
      · exact hpop

/-- **A step keeps the stack bounded**, whatever the host has bound. -/
theorem step_bounded (h : t.machine.Bounded) : t.step.machine.Bounded := by
  unfold step
  split
  · exact h
  · rw [machine_goOn]
    exact h.push _
  · split
    · exact h
    · split
      · exact h
      · exact enter_bounded h _ _ _ _ _ _

/-- So the stack is bounded at all points of a run. -/
theorem Leads.bounded (hleads : t.Leads t') (h : t.machine.Bounded) : t'.machine.Bounded := by
  induction hleads with
  | refl => exact h
  | tail _ hstep ih =>
    have hbounded := step_bounded ih
    rwa [hstep] at hbounded

/-- The machine in which a thread ends keeps the bound. -/
theorem EndsIn.bounded {o : Ending} (hends : t.EndsIn o) (h : t.machine.Bounded) :
    o.2.Bounded := by
  obtain ⟨t', hleads, hstep⟩ := hends.exists_leads
  have hbounded := step_bounded (hleads.bounded h)
  rwa [hstep] at hbounded

end Thread

namespace Machine

variable {m m' : Machine} {fuel : Nat} {c : Command} {t : Thread}

/-- The thread of a command starts with a bounded stack. -/
theorem Bounded.thread? (h : m.Bounded) (ht : m.thread? c = some t) : t.machine.Bounded := by
  rcases (of_thread? ht).1 with hm | ⟨line, hm⟩
  · rwa [hm]
  · rw [hm]
    exact h.compile line

/-- The machine that a run leaves keeps the bound. -/
theorem Bounded.run {w : Word} {o : Ending} (h : m.Bounded) (hrun : m.run fuel w = some o) :
    o.2.Bounded := by
  rcases run_cases hrun with ⟨t, ht, hfinish⟩ | ⟨e, _, rfl⟩
  · exact Thread.EndsIn.bounded ⟨fuel, hfinish⟩ (h.thread? (c := .run w) ht)
  · exact h

/-- The machine that an evaluated line leaves keeps the bound. -/
theorem Bounded.eval {line : String} {r : Except Error Unit} (h : m.Bounded)
    (heval : m.eval fuel line = some (r, m')) : m'.Bounded := by
  rcases eval_cases heval with ⟨t, ht, hfinish⟩ | ⟨rfl, _⟩
  · exact Thread.EndsIn.bounded ⟨fuel, hfinish⟩ (h.thread? (c := .eval line) ht)
  · exact h.compile line

/-- The machine that an executed line leaves keeps the bound. -/
theorem Bounded.exec {line : String} {r : Except Error Cell} (h : m.Bounded)
    (hexec : m.exec fuel line = some (r, m')) : m'.Bounded := by
  rcases exec_cases hexec with ⟨t, r', ht, hfinish, _⟩ | ⟨rfl, _⟩
  · exact Thread.EndsIn.bounded ⟨fuel, hfinish⟩ (h.thread? (c := .exec line) ht)
  · exact h.compile line

/-- **A command keeps the stack bounded.** -/
theorem Bounded.obey (h : m.Bounded) {r : Except Error Reply}
    (hobey : m.obey fuel c = some (r, m')) : m'.Bounded := by
  cases c with
  | load =>
    cases hobey
    exact defwords standardWords h
  | define name source =>
    cases hobey
    exact h.define name source
  | defword name action =>
    cases hobey
    exact h.defword name action
  | compile line =>
    cases hobey
    exact h.compile line
  | run word =>
    obtain ⟨_, hrun, heq⟩ := Option.map_eq_some_iff.1 hobey
    cases heq
    exact h.run hrun
  | eval line =>
    obtain ⟨_, heval, heq⟩ := Option.map_eq_some_iff.1 hobey
    cases heq
    exact h.eval heval
  | exec line =>
    obtain ⟨_, hexec, heq⟩ := Option.map_eq_some_iff.1 hobey
    cases heq
    exact h.exec hexec
  | execBytes bytes =>
    obtain ⟨_, hexec, heq⟩ := Option.map_eq_some_iff.1 hobey
    cases heq
    unfold execBytes at hexec
    split at hexec
    · exact h.exec hexec
    · cases hexec
      exact h
  | push value =>
    cases hobey
    exact h.push value
  | pop =>
    cases hobey
    exact h.pop
  | clear =>
    cases hobey
    exact h.perform Bench.inStep_clear_holding
  | print | clearConsole =>
    cases hobey
    exact h

/-- **Every reachable machine is bounded.** -/
theorem Reachable.bounded {allowed : Command → Prop} (h : Reachable allowed m) : m.Bounded := by
  induction h with
  | boot limits => exact .boot limits
  | obey fuel _ _ hobey ih => exact ih.obey hobey

end Machine

end Threaded
