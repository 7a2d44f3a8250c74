import Threaded.Proofs.Coupling

/-!
# Runs side by side

Two machines run words that stand for one another.  If their dictionaries match and the primitives
are those of the standard set, neither dictionary changes, and the machines go in step: the same
stack after each step, the same text printed, and the same end or none (`finish_beside`).

What was printed before may differ, since no operation of the standard set looks at the console:
the actions that all operations are made of are `Bench.Blind`.  So this is a coupling of runs that
excuses nothing, with frames at the same depth.
-/

namespace Threaded

/-! ## Benches -/

namespace Bench

variable {α : Type}

/-- The same stack, and the same text printed behind `c` and behind `c'`. -/
structure Beside (c c' : String) (b b' : Bench) : Prop where
  stack : b.stack = b'.stack
  text : ∃ text, b.console = c ++ text ∧ b'.console = c' ++ text

/-- The two sides may be exchanged. -/
theorem Beside.symm {c c' : String} {b b' : Bench} (h : Beside c c' b b') : Beside c' c b' b :=
  ⟨h.stack.symm, h.text.imp fun _ htext => htext.symm⟩

/-- Benches that are not used yet. -/
theorem Beside.start (s : Stack Cell) (c c' : String) : Beside c c' ⟨s, c⟩ ⟨s, c'⟩ :=
  ⟨rfl, "", String.append_empty.symm, String.append_empty.symm⟩

/-- An action that does not depend on what was printed. -/
def Blind (x : Action α) : Prop :=
  ∀ c c' b b', Beside c c' b b' →
    (b.perform x).1 = (b'.perform x).1 ∧ Beside c c' (b.perform x).2 (b'.perform x).2

namespace Blind

/-- A push does not look at the console. -/
theorem push (n : Cell) : Blind (push n) := by
  intro c c' b b' h
  rw [perform_push, perform_push, h.stack]
  cases b'.stack.push n with
  | ok stack => exact ⟨rfl, rfl, h.text⟩
  | error e => exact ⟨rfl, h⟩

/-- A pop does not look at the console. -/
theorem pop : Blind pop := by
  intro c c' b b' h
  rw [perform_pop, perform_pop, h.stack]
  cases b'.stack.pop with
  | ok popped => exact ⟨rfl, rfl, h.text⟩
  | error e => exact ⟨rfl, h⟩

/-- Printing does not look at what was printed. -/
theorem print (text : String) : Blind (print text) := by
  rintro c c' b b' ⟨hstack, before, hc, hc'⟩
  refine ⟨rfl, hstack, before ++ text, ?_, ?_⟩
  · show b.console ++ text = _
    rw [hc, String.append_assoc]
  · show b'.console ++ text = _
    rw [hc', String.append_assoc]

/-- An action that does not look at the console keeps benches beside each other. -/
theorem inStep {x : Action α} (hx : Blind x) (c c' : String) (excused : Error → Prop) :
    InStep (Beside c c') excused x :=
  fun b b' h => .inr (hx c c' b b' h)

end Blind

/-- **No operation looks at what was printed.** -/
theorem elementary_beside (c c' : String) (excused : Error → Prop) :
    Elementary (Beside c c') excused where
  push n := (Blind.push n).inStep c c' excused
  pop := Blind.pop.inStep c c' excused
  print text := (Blind.print text).inStep c c' excused
  items _ _ h := congrArg Stack.items h.stack

end Bench

/-! ## Machines and threads -/

/-- Both results fail, with the same error, or both have values, which are related. -/
inductive Agree {α β : Type} (rel : α → β → Prop) : Except Error α → Except Error β → Prop
  | ok {a : α} {b : β} (h : rel a b) : Agree rel (.ok a) (.ok b)
  | error (e : Error) : Agree rel (.error e) (.error e)

/-- A result agrees with itself. -/
theorem Agree.refl {α : Type} (r : Except Error α) : Agree Eq r r := by
  cases r with
  | ok a => exact .ok rfl
  | error e => exact .error e

/-- Frames that go on in the same slot of words that stand for one another. -/
inductive Frame.Alike (R : Renaming) : Frame → Frame → Prop
  | code {body body' : Array Ref} (ip depth : Nat)
    (h : List.Forall₂ R body.toList body'.toList) :
    Alike R (.code body ip depth) (.code body' ip depth)
  | answer (value : Cell) : Alike R (.answer value) (.answer value)

section Beside

variable (R : Renaming) (c c' : String) (d d' : Dict)

/-- Machines with these dictionaries, of one kind, with benches side by side. -/
structure Machine.Beside (m m' : Machine) : Prop where
  left : m.dict = d
  right : m'.dict = d'
  limits : m.limits = m'.limits
  bench : Bench.Beside c c' m.bench m'.bench

/-- Threads of such machines whose frames are alike. -/
structure Thread.Beside (t t' : Thread) : Prop where
  machine : Machine.Beside c c' d d' t.machine t'.machine
  frames : List.Forall₂ (Frame.Alike R) t.frames t'.frames

/-- Both go on side by side, or both are over with the same result. -/
inductive Step.Beside : Step → Step → Prop
  | next {t t' : Thread} (h : Thread.Beside R c c' d d' t t') : Beside (.next t) (.next t')
  | done (r : Except Error Unit) {m m' : Machine} (h : Machine.Beside c c' d d' m m') :
    Beside (.done r m) (.done r m')

/-- The same result, on machines side by side. -/
structure Ending.Beside (o o' : Ending) : Prop where
  result : o.1 = o'.1
  machine : Machine.Beside c c' d d' o.2 o'.2

end Beside

variable {R : Renaming} {c c' : String} {d d' : Dict} {m m' : Machine}

/-- Runs side by side as a coupling. -/
def besides (R : Renaming) (c c' : String) (d d' : Dict) (limits : Limits) : Coupling where
  limits := limits
  limits' := limits
  dict := d
  dict' := d'
  refs := R
  benches := Bench.Beside c c'
  levels _ depth depth' := depth = depth'
  excused _ := False

/-- Matching dictionaries with equal limits are a lawful coupling, in which nothing is excused. -/
theorem lawful_besides (hR : d.Matches R d') (c c' : String) (limits : Limits) :
    (besides R c c' d d' limits).Lawful := by
  refine .of_elementary hR (Bench.elementary_beside c c' _) ?_
  rintro body depth _ rfl r _ w _
  split
  · next hdeep => exact .inr ⟨hdeep, rfl⟩
  · next hdeep => exact ⟨Nat.le_of_not_lt hdeep, rfl⟩

/-- Machines side by side are coupled, and the other way round. -/
theorem Machine.coupled_besides_iff {limits : Limits} :
    Machine.Coupled (besides R c c' d d' limits) m m' ↔
      Machine.Beside c c' d d' m m' ∧ m.limits = limits := by
  constructor
  · intro h
    exact ⟨⟨h.dict, h.dict', h.limits.trans h.limits'.symm, h.bench⟩, h.limits⟩
  · rintro ⟨h, rfl⟩
    exact ⟨rfl, h.limits.symm, h.left, h.right, h.bench⟩

/-- Coupled frames are alike, since depths are equal. -/
theorem Frame.coupled_besides_iff {limits : Limits} {f f' : Frame} :
    Frame.Coupled (besides R c c' d d' limits) f f' ↔ Frame.Alike R f f' := by
  constructor
  · intro h
    cases h with
    | code ip hbody hlevel =>
      cases hlevel
      exact .code ip _ hbody
    | answer value => exact .answer value
  · intro h
    cases h with
    | code ip depth hbody => exact .code ip hbody rfl
    | answer value => exact .answer value

/-- Coupled threads are beside each other, under the limits of the coupling. -/
theorem Thread.coupled_besides_iff {limits : Limits} {t t' : Thread} :
    Thread.Coupled (besides R c c' d d' limits) t t' ↔
      Thread.Beside R c c' d d' t t' ∧ t.machine.limits = limits := by
  have hframes : Frame.Coupled (besides R c c' d d' limits) = Frame.Alike R := by
    funext f f'
    exact propext Frame.coupled_besides_iff
  constructor
  · intro h
    obtain ⟨hm, hlimits⟩ := Machine.coupled_besides_iff.1 h.machine
    exact ⟨⟨hm, hframes ▸ h.frames⟩, hlimits⟩
  · rintro ⟨h, hlimits⟩
    exact ⟨Machine.coupled_besides_iff.2 ⟨h.machine, hlimits⟩, hframes ▸ h.frames⟩

namespace Thread

/-- **Threads side by side step side by side.** -/
theorem step_beside (hR : d.Matches R d') {t t' : Thread} (h : Thread.Beside R c c' d d' t t') :
    Step.Beside R c c' d d' t.step t'.step := by
  have hstep := step_coupled (lawful_besides hR c c' t.machine.limits)
    (coupled_besides_iff.2 ⟨h, rfl⟩)
  generalize t.step = s, t'.step = s' at hstep ⊢
  cases hstep with
  | next hnext => exact .next (coupled_besides_iff.1 hnext).1
  | done r hm => exact .done r (Machine.coupled_besides_iff.1 hm).1
  | excused he => exact he.elim

/-- **They come to the same end, or to none.** -/
theorem finish_beside (hR : d.Matches R d') : (fuel : Nat) → {t t' : Thread} →
    Thread.Beside R c c' d d' t t' →
      Option.Rel (Ending.Beside c c' d d') (finish fuel t) (finish fuel t')
  | 0, _, _, _ => .none
  | fuel + 1, t, t', h => by
    have hstep := step_beside hR h
    rw [finish, finish]
    generalize t.step = s, t'.step = s' at hstep ⊢
    cases hstep with
    | next hnext => exact finish_beside hR fuel hnext
    | done r hm => exact .some ⟨rfl, hm⟩

/-- What ends on the one side ends on the other. -/
theorem endsIn_beside (hR : d.Matches R d') {t t' : Thread} (h : Thread.Beside R c c' d d' t t') :
    (∀ o, t.EndsIn o → ∃ o', t'.EndsIn o' ∧ Ending.Beside c c' d d' o o') ∧
      ∀ o', t'.EndsIn o' → ∃ o, t.EndsIn o ∧ Ending.Beside c c' d d' o o' := by
  have hbeside : ∀ {o o' : Ending}, Ending.Coupled (besides R c c' d d' t.machine.limits) o o' →
      Ending.Beside c c' d d' o o' := fun hend =>
    ⟨hend.result, (Machine.coupled_besides_iff.1 hend.machine).1⟩
  have hcoupled : Thread.Coupled (besides R c c' d d' t.machine.limits) t t' :=
    coupled_besides_iff.2 ⟨h, rfl⟩
  rcases hcoupled.endsIn (lawful_besides hR c c' _) with ⟨_, _, _, hnever⟩ | ⟨hforth, hback⟩
  · exact hnever.elim
  · refine ⟨fun o ho => ?_, fun o' ho' => ?_⟩
    · obtain ⟨o', ho', hend⟩ := hforth o ho
      exact ⟨o', ho', hbeside hend⟩
    · obtain ⟨o, ho, hend⟩ := hback o' ho'
      exact ⟨o, ho, hbeside hend⟩

end Thread

/-- **Words that stand for one another come to the same**, on machines side by side. -/
theorem Machine.run_beside (hR : d.Matches R d') {w w' : Word}
    (hw : List.Forall₂ R w.body.toList w'.body.toList) (hm : Machine.Beside c c' d d' m m')
    (fuel : Nat) : Option.Rel (Ending.Beside c c' d d') (m.run fuel w) (m'.run fuel w') := by
  have hcheck : Jump.check m.dict w.body = Jump.check m'.dict w'.body := by
    rw [hm.left, hm.right, hR.check_eq hw]
  unfold run framesOf
  rw [hcheck]
  cases Jump.check m'.dict w'.body with
  | error e => exact .some ⟨rfl, hm⟩
  | ok => exact Thread.finish_beside hR fuel ⟨hm, .cons (.code 0 0 hw) .nil⟩

end Threaded
