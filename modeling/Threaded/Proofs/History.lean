import Threaded.Command
import Threaded.Proofs.Image

/-!
# What can happen to a machine

Whatever is asked of a machine, three things can happen to it: a line is compiled, a name is bound,
and something is done on the bench.  `Develops` says that nothing else has happened between two
machines.  It is proved once of everything a primitive can do, of one step of a run
(`step_develops`), from there of all runs (`finish_develops`), so it holds in the middle of a run
too, whatever the services do, and of every command (`obey_develops`).

What a machine never loses is read off these three.  It keeps its limits, and its dictionary only
grows (`Develops.grows`): compiling a line adds nothing that has a name
(`compile_extendsUnnamed`), and binding a name adds at the end.  So what is true of the entries of
the boot is true of every reachable machine: reference zero still is the NOP of the boot
(`Reachable.get?_nop`).
-/

namespace Threaded

/-! ## Compiling -/

namespace Assembly

/-- The first symbol of a line is in front of everything. -/
theorem Stands.start (d : Dict) (tokens : Nat) : Stands d [] [] (Assembly.start d tokens) :=
  ⟨.start d tokens, rfl, rfl⟩

/-- The word of an assembly has its slots, and they pass the check. -/
theorem finish_eq_ok {a : Assembly} {w : Word} (h : a.finish = .ok w) :
    w.body = a.code ∧ Jump.check a.dict w.body = .ok () := by
  unfold finish at h
  split at h
  · cases hc : Jump.check a.dict a.code with
    | ok =>
      rw [hc] at h
      cases h
      exact ⟨rfl, hc⟩
    | error e =>
      rw [hc] at h
      cases h
  · simp at h

end Assembly

/-- **What comes of the symbols of a line**: the error of the first at fault, or their image. -/
theorem assemble_image (d : Dict) (symbols : List Symbol) :
    match Symbol.faultFrom d [] symbols with
    | some e => ∃ d', assemble d symbols = (.error e, d') ∧ d.ExtendsUnnamed d'
    | none => ∃ a os, assemble d symbols = (a.finish, a.dict) ∧ Assembly.Stands d symbols os a ∧
        a.code.toList = Symbol.slotRefs d d.size symbols ∧
        ∀ i, a.dict.get? (d.size + i) = (Symbol.freshEntries d symbols)[i]? := by
  have h := Assembly.addAll_image symbols [] [] _ (.start d symbols.length) (Nat.le_refl _)
  unfold assemble
  cases hf : Symbol.faultFrom d [] symbols with
  | none =>
    rw [hf] at h
    obtain ⟨a, os, ha, hstands, hyields⟩ := h
    rw [ha]
    exact ⟨a, os, rfl, hstands, hyields.code, hyields.fresh⟩
  | some e =>
    rw [hf] at h
    obtain ⟨a, ha, hgrows⟩ := h
    rw [ha]
    exact ⟨a.dict, rfl, hgrows⟩

/-- Assembling a line adds entries without names, also when it fails. -/
theorem assemble_extendsUnnamed (d : Dict) (symbols : List Symbol) :
    d.ExtendsUnnamed (assemble d symbols).2 := by
  have h := assemble_image d symbols
  split at h
  · obtain ⟨d', hd', hgrows⟩ := h
    rw [hd']
    exact hgrows
  · obtain ⟨a, os, ha, hstands, _⟩ := h
    rw [ha]
    exact hstands.tracks.grows

/-- The word of a line passes the check in the dictionary that the line leaves. -/
theorem check_of_assemble {d : Dict} {symbols : List Symbol} {w : Word}
    (h : (assemble d symbols).1 = .ok w) :
    Jump.check (assemble d symbols).2 w.body = .ok () := by
  unfold assemble at h ⊢
  split at h
  · exact (Assembly.finish_eq_ok h).2
  · simp at h

namespace Machine

variable {m m' m'' : Machine} {line : String} {w : Word}

/-- Compiling a line adds entries without names to the dictionary, also when it fails. -/
theorem compile_extendsUnnamed (m : Machine) (line : String) :
    m.dict.ExtendsUnnamed (m.compile line).2.dict := by
  unfold compile
  split
  · exact .refl _
  · exact .refl _
  · exact assemble_extendsUnnamed _ _

/-- Compiling a line leaves the limits alone. -/
theorem limits_compile (m : Machine) (line : String) : (m.compile line).2.limits = m.limits := by
  unfold compile
  split <;> rfl

/-- Compiling a line leaves the bench alone. -/
theorem bench_compile (m : Machine) (line : String) : (m.compile line).2.bench = m.bench := by
  unfold compile
  split <;> rfl

/-- Binding operations leaves the bench alone. -/
theorem bench_defwords (words : List (String × Op)) (m : Machine) :
    (m.defwords words).2.bench = m.bench := by
  induction words generalizing m with
  | nil => rfl
  | cons word words ih =>
    obtain ⟨name, op⟩ := word
    unfold defwords defword
    split
    · next h =>
      split at h
      · cases h
        exact ih _
      · cases h
    · next h =>
      split at h
      · cases h
      · cases h
        rfl

/-- The word of a line passes the check on the machine that the line leaves. -/
theorem check_of_compile (h : m.compile line = (.ok (some w), m')) :
    Jump.check m'.dict w.body = .ok () := by
  unfold compile at h
  split at h
  · simp at h
  · simp at h
  · next tokens _ _ =>
    have hcheck := @check_of_assemble m.dict (tokens.map Token.symbol) w
    generalize assemble m.dict (tokens.map Token.symbol) = assembled at h hcheck
    rcases assembled with ⟨e | w', d⟩
    · simp [Except.map] at h
    · obtain ⟨hw, rfl⟩ : w' = w ∧ { m with dict := d } = m' := by simpa [Except.map] using h
      exact hcheck (congrArg Except.ok hw)

/-- The word of a line can be run right away. -/
theorem framesOf_of_compile (h : m.compile line = (.ok (some w), m')) :
    m'.framesOf w = .ok [.code w.body 0 0] := by
  unfold framesOf
  rw [check_of_compile h]
  rfl

/-! ## What everything comes down to -/

/-- The entries that a name can be bound to: an allowed primitive, or a compound that passes the
check.  The name must be able to stand in a line. -/
inductive Bindable (allowed : Primitive → Prop) (m : Machine) : Entry → Prop
  | primitive {name : String} {action : Primitive} (hname : isName m.limits.nameLen name = true)
    (h : allowed action) : Bindable allowed m (.primitive name action)
  | compound {w : Word} (hname : isName m.limits.nameLen w.name = true)
    (h : Jump.check m.dict w.body = .ok ()) : Bindable allowed m (.compound w)

/-- Between two machines lines were compiled, names were bound and something was done on the
bench. -/
inductive Develops (allowed : Primitive → Prop) (m : Machine) : Machine → Prop
  | refl : Develops allowed m m
  | bench {m' : Machine} (b : Bench) :
    Develops allowed m m' → Develops allowed m { m' with bench := b }
  | compile {m' : Machine} (line : String) :
    Develops allowed m m' → Develops allowed m (m'.compile line).2
  | bind {m' : Machine} {e : Entry} :
    Develops allowed m m' → Bindable allowed m' e → Develops allowed m (m'.register e)

namespace Develops

variable {allowed : Primitive → Prop}

/-- Developments follow one another. -/
theorem trans (h : Develops allowed m m') (h' : Develops allowed m' m'') :
    Develops allowed m m'' := by
  induction h' with
  | refl => exact h
  | bench b _ ih => exact .bench b ih
  | compile line _ ih => exact .compile line ih
  | bind _ he ih => exact .bind ih he

/-- An action on the bench. -/
theorem perform {α : Type} (m : Machine) (x : Bench.Action α) :
    Develops allowed m (m.perform x).2 :=
  .bench _ .refl

/-- The action of a primitive. -/
theorem act (m : Machine) (x : Bench.Action Unit) : Develops allowed m (m.act x).2 :=
  .bench _ .refl

/-- Binding a name to a primitive that is allowed. -/
theorem defword (m : Machine) (name : String) {action : Primitive} (ha : allowed action) :
    Develops allowed m (m.defword name action).2 := by
  unfold Machine.defword
  split
  · next hname => exact .bind .refl (.primitive hname ha)
  · exact .refl

/-- Binding names to operations, all of which are allowed. -/
theorem defwords (hop : ∀ op, allowed (.op op)) (words : List (String × Op)) :
    (m : Machine) → Develops allowed m (m.defwords words).2 := by
  induction words with
  | nil => exact fun _ => .refl
  | cons word words ih =>
    obtain ⟨name, op⟩ := word
    intro m
    have hfirst : Develops allowed m (m.defword name (.op op)).2 := .defword m name (hop op)
    unfold Machine.defwords
    split
    · next m' h =>
      rw [h] at hfirst
      exact hfirst.trans (ih m')
    · next m' h =>
      rw [h] at hfirst
      exact hfirst

/-- Binding a name to a line. -/
theorem define (m : Machine) (name source : String) :
    Develops allowed m (m.define name source).2 := by
  have hcompile : Develops allowed m (m.compile source).2 := .compile source .refl
  have hlimits := limits_compile m source
  unfold Machine.define
  split
  · next hname =>
    split
    · next m' h =>
      rw [h] at hcompile
      exact hcompile
    · next w m' h =>
      rw [h] at hcompile hlimits
      have hbody : Jump.check m'.dict ((w.map Word.body).getD #[]) = .ok () := by
        cases w with
        | none => rfl
        | some w => exact check_of_compile h
      exact .bind hcompile (.compound (by rwa [hlimits]) hbody)
  · exact .refl

/-- Opening the frames of a line that is evaluated. -/
theorem evalFrames (m : Machine) (line : String) : Develops allowed m (m.evalFrames line).2 := by
  have hcompile : Develops allowed m (m.compile line).2 := .compile line .refl
  unfold Machine.evalFrames
  split <;> next h => rw [h] at hcompile; exact hcompile

/-- Opening the frames of a line that is executed. -/
theorem execFrames (m : Machine) (line : String) : Develops allowed m (m.execFrames line).2 := by
  have hcompile : Develops allowed m (m.compile line).2 := .compile line .refl
  unfold Machine.execFrames
  split <;> next h => rw [h] at hcompile; exact hcompile

/-- The work of a service. -/
theorem serve (m : Machine) (r : Ref) (s : Service) : Develops allowed m (m.serve r s).2 := by
  cases s with
  | fail => exact .refl
  | eval line => exact evalFrames m line
  | exec line => exact execFrames m line
  | define name =>
    have hpop : Develops allowed m (m.perform Bench.pop).2 := perform m Bench.pop
    rw [Machine.serve]
    split
    · next m' h =>
      rw [h] at hpop
      exact hpop
    · next n m' h =>
      rw [h] at hpop
      exact hpop.trans (define m' name n.render)
  | _ => exact act m _

/-- **What a primitive does** comes down to these three things. -/
theorem call (m : Machine) (r : Ref) (p : Primitive) : Develops allowed m (m.call r p).2 := by
  cases p with
  | nop => exact .refl
  | op op => exact act m _
  | service s => exact serve m r s

end Develops

end Machine

/-! ## Runs -/

/-- The machine that a step leaves. -/
def Step.machine : Step → Machine
  | .next t => t.machine
  | .done _ m => m

namespace Thread

open Machine (Develops)

variable {allowed : Primitive → Prop}

/-- Going on leaves the machine as it is. -/
theorem machine_goOn (r : Except Error (List Frame) × Machine) (rest : List Frame) :
    (goOn r rest).machine = r.2 := by
  obtain ⟨r, m⟩ := r
  cases r <;> rfl

/-- The action of an entry develops the machine. -/
theorem enter_develops (m : Machine) (body : Array Ref) (ip depth : Nat) (r : Ref)
    (rest : List Frame) (e : Entry) :
    Develops allowed m (enter m body ip depth r rest e).machine := by
  cases e with
  | literal value =>
    rw [enter, machine_goOn]
    exact .act m _
  | primitive name action =>
    rw [enter, machine_goOn]
    exact .call m r action
  | compound w =>
    rw [enter]
    split <;> exact .refl
  | branch offset =>
    rw [enter, machine_goOn]
    exact .refl
  | zbranch offset =>
    have hpop : Develops allowed m (m.perform Bench.pop).2 := .perform m Bench.pop
    rw [enter]
    split
    · next m' h =>
      rw [h] at hpop
      exact hpop
    · next n m' h =>
      rw [h] at hpop
      split
      · rw [machine_goOn]
        exact hpop
      · exact hpop

/-- **What a step does** comes down to them, whatever entry acts in it. -/
theorem step_develops (t : Thread) : Develops allowed t.machine t.step.machine := by
  unfold step
  split
  · exact .refl
  · rw [machine_goOn]
    exact .act _ _
  · split
    · exact .refl
    · split
      · exact .refl
      · exact enter_develops _ _ _ _ _ _ _

/-- **What a run does** comes down to them, however it ends. -/
theorem finish_develops {fuel : Nat} {t : Thread} {r : Except Error Unit} {m : Machine}
    (h : finish fuel t = some (r, m)) : Develops allowed t.machine m := by
  induction fuel generalizing t with
  | zero => cases h
  | succ fuel ih =>
    have hstep : Develops allowed t.machine t.step.machine := step_develops t
    rw [finish] at h
    split at h
    · next t' ht =>
      rw [ht] at hstep
      exact hstep.trans (ih h)
    · next ht =>
      rw [ht] at hstep
      cases h
      exact hstep

end Thread

namespace Machine

variable {allowed : Primitive → Prop} {m m' m'' : Machine} {fuel : Nat}

/-- A run develops the machine. -/
theorem run_develops {w : Word} {r : Except Error Unit} (h : m.run fuel w = some (r, m')) :
    Develops allowed m m' := by
  unfold run at h
  split at h
  · cases h
    exact .refl
  · exact Thread.finish_develops h

/-- An evaluated line develops the machine. -/
theorem eval_develops {line : String} {r : Except Error Unit}
    (h : m.eval fuel line = some (r, m')) : Develops allowed m m' := by
  have hcompile : Develops allowed m (m.compile line).2 := .compile line .refl
  unfold eval at h
  generalize m.compile line = compiled at hcompile h
  rcases compiled with ⟨e | (_ | w), m₁⟩
  · cases h
    exact hcompile
  · cases h
    exact hcompile
  · exact hcompile.trans (run_develops h)

/-- An executed line develops the machine. -/
theorem exec_develops {line : String} {r : Except Error Cell}
    (h : m.exec fuel line = some (r, m')) : Develops allowed m m' := by
  have hcompile : Develops allowed m (m.compile line).2 := .compile line .refl
  unfold exec at h
  generalize m.compile line = compiled at hcompile h
  rcases compiled with ⟨e | (_ | w), m₁⟩
  · cases h
    exact hcompile
  · cases h
    exact hcompile
  · obtain ⟨⟨r', m₂⟩, hrun, heq⟩ := Option.map_eq_some_iff.1 h
    cases heq
    exact hcompile.trans (run_develops hrun)

/-- **What a command does** comes down to compiling lines, binding names and working on the bench,
whatever it answers. -/
theorem obey_develops (hop : ∀ op, allowed (.op op)) {c : Command} (hc : c.Binds allowed)
    {r : Except Error Reply} (h : m.obey fuel c = some (r, m')) : Develops allowed m m' := by
  cases c with
  | load =>
    cases h
    exact .defwords hop _ m
  | define name source =>
    cases h
    exact .define m name source
  | defword name action =>
    cases h
    exact .defword m name (hc action List.mem_cons_self)
  | compile line =>
    cases h
    exact .compile line .refl
  | run word =>
    obtain ⟨⟨_, _⟩, hrun, heq⟩ := Option.map_eq_some_iff.1 h
    cases heq
    exact run_develops hrun
  | eval line =>
    obtain ⟨⟨_, _⟩, hrun, heq⟩ := Option.map_eq_some_iff.1 h
    cases heq
    exact eval_develops hrun
  | exec line =>
    obtain ⟨⟨_, _⟩, hrun, heq⟩ := Option.map_eq_some_iff.1 h
    cases heq
    exact exec_develops hrun
  | execBytes bytes =>
    obtain ⟨⟨_, _⟩, hrun, heq⟩ := Option.map_eq_some_iff.1 h
    cases heq
    unfold execBytes at hrun
    split at hrun
    · exact exec_develops hrun
    · cases hrun
      exact .refl
  | push | pop | clear | print | clearConsole =>
    cases h
    exact .bench _ .refl

/-! ## What is kept -/

/-- The limits are the same, and the dictionary holds all that it held. -/
structure Grows (m m' : Machine) : Prop where
  limits : m'.limits = m.limits
  dict : m.dict.Extends m'.dict

namespace Grows

/-- A machine has grown from itself. -/
theorem refl (m : Machine) : Grows m m :=
  ⟨rfl, .refl _⟩

/-- What has grown twice has grown. -/
theorem trans (h : Grows m m') (h' : Grows m' m'') : Grows m m'' :=
  ⟨h'.limits.trans h.limits, h.dict.trans h'.dict⟩

end Grows

/-- **Whatever happens to a machine, it keeps what there is.** -/
theorem Develops.grows (h : Develops allowed m m') : Grows m m' := by
  induction h with
  | refl => exact .refl m
  | bench b _ ih => exact ⟨ih.limits, ih.dict⟩
  | compile line _ ih =>
    exact ih.trans ⟨limits_compile _ line, (compile_extendsUnnamed _ line).toExtends⟩
  | bind _ _ ih => exact ih.trans ⟨rfl, .register _ _⟩

/-- An action lets the machine grow. -/
theorem Grows.perform {α : Type} (m : Machine) (x : Bench.Action α) : Grows m (m.perform x).2 :=
  ⟨rfl, .refl _⟩

/-- The action of a primitive lets it grow. -/
theorem Grows.act (m : Machine) (x : Bench.Action Unit) : Grows m (m.act x).2 :=
  ⟨rfl, .refl _⟩

/-- A call lets it grow. -/
theorem Grows.call (m : Machine) (r : Ref) (p : Primitive) : Grows m (m.call r p).2 :=
  (Develops.call m r p : Develops (fun _ => True) m _).grows

/-- A command keeps what there is, whatever it binds. -/
theorem obey_grows {c : Command} {r : Except Error Reply} (h : m.obey fuel c = some (r, m')) :
    Grows m m' :=
  (obey_develops (fun _ => trivial) (fun _ _ => trivial) h : Develops (fun _ => True) m m').grows

/-! ## Reachable machines -/

namespace Reachable

variable {allowed : Command → Prop}

/-- A host that may do more can get to the same machines. -/
theorem mono {allowed' : Command → Prop} (h : Reachable allowed m)
    (hallowed : ∀ c, allowed c → allowed' c) : Reachable allowed' m := by
  induction h with
  | boot limits => exact .boot limits
  | obey fuel _ hc hobey ih => exact .obey fuel ih (hallowed _ hc) hobey

/-- A machine that has compiled a line is reachable, whatever came of the line. -/
theorem compile {line : String} {r : Except Error (Option Word)} (h : Reachable allowed m)
    (hallowed : allowed (.compile line)) (hc : m.compile line = (r, m')) : Reachable allowed m' :=
  .obey 0 h hallowed (by rw [Machine.obey, hc]; rfl)

/-- A machine that has defined a word is reachable, whatever came of the definition. -/
theorem define {name source : String} {r : Except Error Ref} (h : Reachable allowed m)
    (hallowed : allowed (.define name source)) (hdefine : m.define name source = (r, m')) :
    Reachable allowed m' :=
  .obey 0 h hallowed (by rw [Machine.obey, hdefine]; rfl)

/-- A reachable machine has come of the boot. -/
theorem exists_develops (h : Reachable allowed m) :
    ∃ limits, Develops (fun _ => True) (Machine.boot limits) m := by
  induction h with
  | boot limits => exact ⟨limits, .refl⟩
  | obey fuel _ _ hobey ih =>
    obtain ⟨limits, hdev⟩ := ih
    exact ⟨limits, hdev.trans (obey_develops (fun _ => trivial) (fun _ _ => trivial) hobey)⟩

/-- **Reference zero is the NOP of the boot**, whatever has been bound to that name since. -/
theorem get?_nop (h : Reachable allowed m) :
    m.dict.get? nop = some (.primitive "NOP" .nop) := by
  obtain ⟨limits, hdev⟩ := h.exists_develops
  exact hdev.grows.dict.get? rfl

/-- A token of one byte always fits. -/
theorem nameLen_pos (h : Reachable allowed m) : 0 < m.limits.nameLen := by
  obtain ⟨limits, hdev⟩ := h.exists_develops
  rw [hdev.grows.limits]
  show 0 < max limits.nameLen 1
  omega

end Reachable

end Machine

end Threaded
