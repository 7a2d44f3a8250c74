import Threaded.Command
import Threaded.Proofs.Coupling

/-!
# Raised limits

A machine with more room on its stack, or a higher limit of calls, does the same as one with less,
as long as that one does not get to its limits (`session_raised`).  Nothing depends on how far the
limits are away: they are asked for in two places, the push and the call, and only whether they are
reached.  The stack of open branches of the assembler has its room from the line, and the length of
names is not raised.

The two machines are `Raised`: the same but for the room.  Their runs are coupled, with the errors of
the limits excused, so every command keeps them so unless it answers with such an error
(`Raised.obey`), and a session that never sees one is the same on both.
-/

namespace Threaded

/-! ## Sessions -/

/-- What a host sees when a command is done.  What it may look at before the next one, such as an
item of the stack, is among this. -/
structure Sight where
  answer : Except Error Reply
  /-- The items of the stack, top first. -/
  items : List Cell
  console : String
  dict : Dict
  deriving DecidableEq, Repr

/-- What is seen of a machine that answers. -/
def Machine.sight (m : Machine) (answer : Except Error Reply) : Sight :=
  ⟨answer, m.bench.stack.items, m.console, m.dict⟩

/-- A host gives its next command, if any, in view of what it has seen, latest first. -/
abbrev Host := List Sight → Option Command

namespace Host

/-- Lets a host give so many commands, unless it stops before: all it has seen, latest first, and
`none` if something runs for more than `fuel` steps. -/
def session (host : Host) (fuel : Nat) : Nat → Machine → List Sight → Option (List Sight)
  | 0, _, seen => some seen
  | count + 1, m, seen =>
    match host seen with
    | none => some seen
    | some c =>
      match m.obey fuel c with
      | none => none
      | some (r, m) => host.session fuel count m (m.sight r :: seen)

end Host

/-- An error that blames a limit. -/
def Error.OfLimit (e : Error) : Prop :=
  e = .stackOverflow ∨ ∃ depth, e = .recursionLimitExceeded depth

/-! ## Benches -/

namespace Bench

/-- The same bench but for the room, of which the second has no less. -/
structure Roomier (b b' : Bench) : Prop where
  items : b.stack.items = b'.stack.items
  room : b.stack.room ≤ b'.stack.room
  console : b.console = b'.console

/-- **A push on a full stack is excused**, and nothing else asks for the room. -/
theorem elementary_roomier : Elementary Roomier Error.OfLimit where
  push n := by
    rintro ⟨⟨items, room⟩, console⟩ ⟨⟨items', room'⟩, console'⟩ ⟨hitems, hroom, hconsole⟩
    obtain rfl : items = items' := hitems
    obtain rfl : console = console' := hconsole
    rw [perform_push, perform_push]
    rcases room with _ | room
    · exact .inl ⟨.stackOverflow, rfl, .inl rfl⟩
    · obtain ⟨k, rfl⟩ : ∃ k, room' = k + 1 := ⟨room' - 1, by simp at hroom; omega⟩
      exact .inr ⟨rfl, rfl, Nat.le_of_succ_le_succ hroom, rfl⟩
  pop := by
    rintro ⟨⟨items, room⟩, console⟩ ⟨⟨items', room'⟩, console'⟩ ⟨hitems, hroom, hconsole⟩
    obtain rfl : items = items' := hitems
    obtain rfl : console = console' := hconsole
    rw [perform_pop, perform_pop]
    rcases items with _ | ⟨a, items⟩
    · exact .inr ⟨rfl, rfl, hroom, rfl⟩
    · exact .inr ⟨rfl, rfl, Nat.succ_le_succ hroom, rfl⟩
  print text := by
    rintro b b' ⟨hitems, hroom, hconsole⟩
    exact .inr ⟨rfl, hitems, hroom, congrArg (· ++ text) hconsole⟩
  items _ _ h := h.items

/-- Clearing is in step on a larger stack. -/
theorem inStep_clear : InStep Roomier Error.OfLimit clear := by
  rintro b b' ⟨hitems, hroom, hconsole⟩
  refine .inr ⟨rfl, rfl, ?_, hconsole⟩
  show b.stack.items.length + b.stack.room ≤ b'.stack.items.length + b'.stack.room
  rw [hitems]
  omega

end Bench

namespace Machine

/-! ## Machines -/

/-- The same machine but for the limits, of which the second has no less. -/
structure Raised (m m' : Machine) : Prop where
  nameLen : m.limits.nameLen = m'.limits.nameLen
  maxDepth : m.limits.maxDepth ≤ m'.limits.maxDepth
  dict : m.dict = m'.dict
  bench : Bench.Roomier m.bench m'.bench

/-- What the first comes to blames a limit, or the second comes to the same. -/
def Holds {α : Type} (x x' : Option (Except Error α × Machine)) : Prop :=
  ∀ r m, x = some (r, m) →
    (∃ e, r = .error e ∧ e.OfLimit) ∨ ∃ m', x' = some (r, m') ∧ Raised m m'

variable {α β : Type} {m m' : Machine} {fuel : Nat}

/-- A machine that is answered for is raised. -/
theorem holds_some {r : Except Error α} (h : Raised m m') :
    Holds (some (r, m)) (some (r, m')) := by
  intro r' m₁ heq
  cases heq
  exact .inr ⟨m', rfl, h⟩

/-- The value may be taken for another. -/
theorem Holds.map {x x' : Option (Except Error α × Machine)} {f : α → β}
    {g : Except Error α × Machine → Except Error β × Machine} (h : Holds x x')
    (hg : ∀ o, g o = (o.1.map f, o.2)) : Holds (x.map g) (x'.map g) := by
  intro r m₁ heq
  obtain ⟨⟨r₀, m₀⟩, hx, hr⟩ := Option.map_eq_some_iff.1 heq
  rw [hg] at hr
  cases hr
  rcases h r₀ m₀ hx with ⟨e, rfl, he⟩ | ⟨m₁', hx', hraised⟩
  · exact .inl ⟨e, rfl, he⟩
  · exact .inr ⟨m₁', by rw [hx', Option.map_some, hg], hraised⟩

/-- What is answered is a matter of the result. -/
theorem Holds.of {x x' : Option (Except Error α × Machine)} (h : Holds x x') (f : α → Reply) :
    Holds (x.map (Outcome.of f)) (x'.map (Outcome.of f)) :=
  h.map fun _ => rfl

namespace Raised

/-- An action that is in step keeps machines raised. -/
theorem perform {x : Bench.Action α} (h : Raised m m')
    (hx : Bench.InStep Bench.Roomier Error.OfLimit x) :
    Holds (some (m.perform x)) (some (m'.perform x)) := by
  intro r m₁ heq
  cases heq
  rcases hx _ _ h.bench with hexcused | ⟨hresult, hbench⟩
  · exact .inl hexcused
  · refine .inr ⟨(m'.perform x).2, ?_, h.nameLen, h.maxDepth, h.dict, hbench⟩
    exact congrArg some (Prod.ext hresult.symm rfl)

/-- Two machines are raised over every dictionary. -/
theorem withDict (h : Raised m m') (d : Dict) : Raised { m with dict := d } { m' with dict := d } :=
  ⟨h.nameLen, h.maxDepth, rfl, h.bench⟩

/-- **Compiling a line** asks for no limit that is raised. -/
theorem compile (h : Raised m m') (line : String) :
    (m.compile line).1 = (m'.compile line).1 ∧ Raised (m.compile line).2 (m'.compile line).2 := by
  unfold Machine.compile
  rw [h.nameLen, h.dict]
  split
  · exact ⟨rfl, h⟩
  · exact ⟨rfl, h⟩
  · exact ⟨rfl, h.withDict _⟩

/-- They stay raised when both register an entry. -/
theorem register (h : Raised m m') (e : Entry) : Raised (m.register e) (m'.register e) :=
  ⟨h.nameLen, h.maxDepth, congrArg (Dict.register · e) h.dict, h.bench⟩

/-- They stay raised when both bind a name, and the answers are the same. -/
theorem defword (h : Raised m m') (name : String) (action : Primitive) :
    (m.defword name action).1 = (m'.defword name action).1 ∧
      Raised (m.defword name action).2 (m'.defword name action).2 := by
  unfold Machine.defword
  rw [h.nameLen, h.dict]
  by_cases hname : isName m'.limits.nameLen name = true
  · rw [if_pos hname, if_pos hname]
    exact ⟨rfl, h.register _⟩
  · rw [if_neg hname, if_neg hname]
    exact ⟨rfl, h⟩

/-- They stay raised when both bind names in turn, and the answers are the same. -/
theorem defwords : (words : List (String × Op)) → {m m' : Machine} → Raised m m' →
    (m.defwords words).1 = (m'.defwords words).1 ∧
      Raised (m.defwords words).2 (m'.defwords words).2
  | [], _, _, h => ⟨rfl, h⟩
  | (name, op) :: rest, m, m', h => by
    have hfirst := h.defword name (.op op)
    unfold Machine.defwords
    generalize m.defword name (.op op) = o, m'.defword name (.op op) = o' at hfirst ⊢
    obtain ⟨r, m₁⟩ := o
    obtain ⟨r', m₁'⟩ := o'
    obtain ⟨rfl, hraised⟩ : r = r' ∧ Raised m₁ m₁' := hfirst
    rcases r with e | r
    · exact ⟨rfl, hraised⟩
    · exact defwords rest hraised

/-- They stay raised when both define a name, and the answers are the same. -/
theorem define (h : Raised m m') (name source : String) :
    (m.define name source).1 = (m'.define name source).1 ∧
      Raised (m.define name source).2 (m'.define name source).2 := by
  have hcompile := h.compile source
  unfold Machine.define
  rw [h.nameLen]
  by_cases hname : isName m'.limits.nameLen name = true
  · rw [if_pos hname, if_pos hname]
    generalize m.compile source = o, m'.compile source = o' at hcompile ⊢
    obtain ⟨r, m₁⟩ := o
    obtain ⟨r', m₁'⟩ := o'
    obtain ⟨rfl, hraised⟩ : r = r' ∧ Raised m₁ m₁' := hcompile
    rcases r with e | w
    · exact ⟨rfl, hraised⟩
    · exact ⟨congrArg (fun d : Dict => Except.ok d.size) hraised.dict, hraised.register _⟩
  · rw [if_neg hname, if_neg hname]
    exact ⟨rfl, h⟩

end Raised

/-! ## Runs -/

/-- The runs of a word with lower and with higher limits. -/
def raising (d : Dict) (limits limits' : Limits) : Coupling where
  limits := limits
  limits' := limits'
  dict := d
  dict' := d
  refs := d.Old
  benches := Bench.Roomier
  levels _ depth depth' := depth = depth'
  excused := Error.OfLimit

/-- Larger limits are a lawful coupling: depths are equal, and the smaller limit comes first. -/
theorem lawful_raising {d : Dict} (h : d.Sound Primitive.Standard) {limits limits' : Limits}
    (hdepth : limits.maxDepth ≤ limits'.maxDepth) : (raising d limits limits').Lawful := by
  refine .of_elementary (h.matches_old (.refl d)) Bench.elementary_roomier ?_
  rintro body depth _ rfl r _ w _
  by_cases hdeep : limits.maxDepth < depth + 1
  · exact (if_pos hdeep).mpr (.inl (.inr ⟨depth + 1, rfl⟩))
  · exact (if_neg hdeep).mpr ⟨Nat.le_trans (Nat.le_of_not_lt hdeep) hdepth, rfl⟩

namespace Raised

/-- **A word comes to the same** unless it comes to a limit. -/
theorem run (h : Raised m m') (hsound : m.dict.Sound Primitive.Standard) (w : Word) (fuel : Nat) :
    Holds (m.run fuel w) (m'.run fuel w) := by
  unfold Machine.run framesOf
  rw [← h.dict]
  cases hc : Jump.check m.dict w.body with
  | error e => exact holds_some h
  | ok =>
    have hcoupled : Thread.Coupled (raising m.dict m.limits m'.limits)
        ⟨m, [.code w.body 0 0]⟩ ⟨m', [.code w.body 0 0]⟩ :=
      ⟨⟨rfl, rfl, rfl, h.dict.symm, h.bench⟩,
        .cons (.code 0 (Dict.forall₂_old_of_check hc) rfl) .nil⟩
    intro r m₁ hrun
    have hfinish : Thread.finish fuel ⟨m, [.code w.body 0 0]⟩ = some (r, m₁) := hrun
    rcases Thread.finish_coupled (lawful_raising hsound h.maxDepth) fuel hcoupled with
      ⟨e, m₂, hend, he⟩ | hrel
    · cases hfinish.symm.trans hend
      exact .inl ⟨e, rfl, he⟩
    · rw [hfinish] at hrel
      generalize hright : Thread.finish fuel ⟨m', [.code w.body 0 0]⟩ = o' at hrel
      cases hrel with
      | @some _ o' hend =>
        obtain ⟨r', m₁'⟩ := o'
        obtain ⟨hresult, hmachine⟩ := hend
        obtain rfl : r = r' := hresult
        refine .inr ⟨m₁', hright, ?_, ?_, hmachine.dict.trans hmachine.dict'.symm, hmachine.bench⟩
        · rw [hmachine.limits, hmachine.limits']
          exact h.nameLen
        · rw [hmachine.limits, hmachine.limits']
          exact h.maxDepth

/-- A line is evaluated alike, up to the first limit. -/
theorem eval (h : Raised m m') (hsound : m.dict.Sound Primitive.Standard) (line : String)
    (fuel : Nat) : Holds (m.eval fuel line) (m'.eval fuel line) := by
  have hcompile := h.compile line
  have hsound₁ := hsound.extendsUnnamed (compile_extendsUnnamed m line)
  unfold Machine.eval
  generalize m.compile line = o, m'.compile line = o' at hcompile hsound₁ ⊢
  obtain ⟨r, m₁⟩ := o
  obtain ⟨r', m₁'⟩ := o'
  obtain ⟨rfl, hraised⟩ : r = r' ∧ Raised m₁ m₁' := hcompile
  rcases r with e | w | w
  · exact holds_some hraised
  · exact holds_some hraised
  · exact hraised.run hsound₁ w fuel

/-- A line is executed alike, up to the first limit. -/
theorem exec (h : Raised m m') (hsound : m.dict.Sound Primitive.Standard) (line : String)
    (fuel : Nat) : Holds (m.exec fuel line) (m'.exec fuel line) := by
  have hcompile := h.compile line
  have hsound₁ := hsound.extendsUnnamed (compile_extendsUnnamed m line)
  unfold Machine.exec
  generalize m.compile line = o, m'.compile line = o' at hcompile hsound₁ ⊢
  obtain ⟨r, m₁⟩ := o
  obtain ⟨r', m₁'⟩ := o'
  obtain ⟨rfl, hraised⟩ : r = r' ∧ Raised m₁ m₁' := hcompile
  rcases r with e | w | w
  · exact holds_some hraised
  · exact holds_some hraised
  · exact (hraised.run hsound₁ w fuel).map fun _ => rfl

/-- A line that comes as bytes is executed alike, up to the first limit. -/
theorem execBytes (h : Raised m m') (hsound : m.dict.Sound Primitive.Standard)
    (bytes : List UInt8) (fuel : Nat) : Holds (m.execBytes fuel bytes) (m'.execBytes fuel bytes) := by
  unfold Machine.execBytes
  rw [h.nameLen]
  rcases Line.ofBytes m'.limits.nameLen bytes with e | line
  · exact holds_some h
  · exact h.exec hsound line fuel

/-! ## Commands -/

/-- **A command comes to the same** unless it comes to a limit. -/
theorem obey (h : Raised m m') (hsound : m.dict.Sound Primitive.Standard) (c : Command)
    (fuel : Nat) : Holds (m.obey fuel c) (m'.obey fuel c) := by
  have hdone : ∀ {α : Type} {o o' : Except Error α × Machine} (f : α → Reply),
      o.1 = o'.1 ∧ Raised o.2 o'.2 → Holds (some (Outcome.of f o)) (some (Outcome.of f o')) := by
    rintro α ⟨r, m₁⟩ ⟨r', m₁'⟩ f ⟨hresult, hraised⟩
    obtain rfl : r = r' := hresult
    exact holds_some hraised
  cases c with
  | load => exact hdone _ (defwords standardWords h)
  | define name source => exact hdone _ (h.define name source)
  | defword name action => exact hdone _ (h.defword name action)
  | compile line => exact hdone _ (h.compile line)
  | run word => exact (h.run hsound word fuel).of _
  | eval line => exact (h.eval hsound line fuel).of _
  | exec line => exact (h.exec hsound line fuel).of _
  | execBytes bytes => exact (h.execBytes hsound bytes fuel).of _
  | push value => exact (h.perform (Bench.elementary_roomier.push value)).of _
  | pop => exact (h.perform Bench.elementary_roomier.pop).of _
  | clear => exact (h.perform Bench.inStep_clear).of _
  | print text => exact (h.perform (Bench.elementary_roomier.print text)).of _
  | clearConsole =>
    exact holds_some ⟨h.nameLen, h.maxDepth, h.dict, h.bench.items, h.bench.room, rfl⟩

/-- Nothing of what is seen tells the machines apart. -/
theorem sight_eq (h : Raised m m') (answer : Except Error Reply) :
    m.sight answer = m'.sight answer := by
  simp only [sight, console, h.bench.items, h.bench.console, h.dict]

end Raised

/-! ## The theorem -/

/-- What has been seen stays among what is seen. -/
theorem mem_of_session {host : Host} {fuel : Nat} {s : Sight} : (count : Nat) → {m : Machine} →
    {before seen : List Sight} → host.session fuel count m before = some seen → s ∈ before → s ∈ seen
  | 0, _, _, _, h, hs => Option.some.inj h ▸ hs
  | count + 1, m, before, seen, h, hs => by
    rw [Host.session] at h
    split at h
    · exact Option.some.inj h ▸ hs
    · split at h
      · simp at h
      · exact mem_of_session count h (List.mem_cons_of_mem _ hs)

/-- **From any point on** the session is the same, if nothing that is seen blames a limit. -/
theorem session_raised_from {host : Host}
    (hhost : ∀ seen c, host seen = some c → c.Binds Primitive.Standard) {fuel : Nat}
    {seen : List Sight} (hwithin : ∀ s ∈ seen, ∀ e, s.answer = .error e → ¬ e.OfLimit) :
    (count : Nat) → {m m' : Machine} → {before : List Sight} →
      Reachable (Command.Binds Primitive.Standard) m → Raised m m' →
      host.session fuel count m before = some seen →
        host.session fuel count m' before = some seen
  | 0, _, _, _, _, _, h => h
  | count + 1, m, m', before, hreach, hraised, h => by
    rw [Host.session] at h ⊢
    split at h
    · exact h
    · next c hc =>
      have hsound : m.dict.Sound Primitive.Standard := hreach.sound fun _ h => h
      have hobey := hraised.obey hsound c fuel
      split at h
      · simp at h
      · next r m₁ hleft =>
        have hsight : m₁.sight r ∈ seen := mem_of_session count h List.mem_cons_self
        rcases hobey r m₁ hleft with ⟨e, hr, he⟩ | ⟨m₁', hright, hraised₁⟩
        · exact absurd he (hwithin _ hsight e hr)
        · rw [hright]
          dsimp only
          rw [← hraised₁.sight_eq]
          exact session_raised_from hhost hwithin count (.obey fuel hreach (hhost _ _ hc) hleft)
            hraised₁ h

/-- **Raising the limits changes nothing for those who stay within them.**  If a session, on a
machine whose host binds primitives of the standard set at most, never sees an error that blames a
limit, then the same session on a machine with as long names, as many places on its stack or more,
and calls that may be nested as deep or deeper, sees the same: answers, items, text and dictionary,
command for command. -/
theorem session_raised {limits limits' : Limits} (hname : limits.nameLen = limits'.nameLen)
    (hstack : limits.stackSize ≤ limits'.stackSize) (hdepth : limits.maxDepth ≤ limits'.maxDepth)
    {host : Host} (hhost : ∀ seen c, host seen = some c → c.Binds Primitive.Standard)
    {fuel count : Nat} {seen : List Sight}
    (h : host.session fuel count (boot limits) [] = some seen)
    (hwithin : ∀ s ∈ seen, ∀ e, s.answer = .error e → ¬ e.OfLimit) :
    host.session fuel count (boot limits') [] = some seen := by
  have hraised : Raised (boot limits) (boot limits') := by
    refine ⟨?_, hdepth, rfl, rfl, hstack, rfl⟩
    show max limits.nameLen 1 = max limits'.nameLen 1
    rw [hname]
  exact session_raised_from hhost hwithin count (.boot limits) hraised h

/-- A host that squares a number twice, and takes more than there is. -/
def squaring : Host := fun seen =>
  [.load, .define "SQ" "DUP MUL", .eval "-7 SQ", .exec "SQ", .pop, .pop][seen.length]?

/-- Two places and one call are enough for it. -/
theorem session_raised_squaring :
    ∃ seen, squaring.session 20 9 (boot { stackSize := 2, maxDepth := 1 }) [] = some seen ∧
      seen.map Sight.answer = [.error .stackUnderflow, .ok (.cell 2401), .ok (.code 0), .ok .done,
        .ok (.ref 17), .ok .done] ∧
      squaring.session 20 9 (boot {}) [] = some seen := by
  obtain ⟨seen, hseen, hanswers⟩ : ∃ seen,
      squaring.session 20 9 (boot { stackSize := 2, maxDepth := 1 }) [] = some seen ∧
      seen.map Sight.answer = [.error .stackUnderflow, .ok (.cell 2401), .ok (.code 0), .ok .done,
        .ok (.ref 17), .ok .done] := ⟨_, rfl, rfl⟩
  have hbinds : ∀ seen c, squaring seen = some c → c.Binds Primitive.Standard := by
    intro seen c hc p hp
    have hmem := List.mem_of_getElem? hc
    simp only [List.mem_cons, List.not_mem_nil, or_false] at hmem
    rcases hmem with rfl | rfl | rfl | rfl | rfl | rfl <;> cases hp
  have hwithin : ∀ s ∈ seen, ∀ e, s.answer = .error e → ¬ e.OfLimit := by
    intro s hs e he
    have hmem : s.answer ∈ seen.map Sight.answer := List.mem_map_of_mem hs
    rw [hanswers, he] at hmem
    obtain rfl : e = .stackUnderflow := by simpa using hmem
    rintro (h | ⟨_, h⟩) <;> cases h
  exact ⟨seen, hseen, hanswers,
    session_raised rfl (by decide) (by decide) hbinds hseen hwithin⟩

end Machine

end Threaded
