import Mathlib.Logic.Relation
import Threaded.Proofs.History

/-!
# Runs to the end

Fuel decides whether the end of a run is seen, not what it is (`finish_mono`).  Here the fuel is
dropped: a thread **ends in** a result and a machine (`Thread.EndsIn`), in one at most, and each
step of it may be looked at alone (`endsIn_iff`).  What a thread comes to on the way are its
**points** (`Thread.Leads`), and a command that runs something does so in one thread
(`obey_eq_finish`).

A **behaviour** says of every machine how something ends that is started from it.  Behaviours
follow one another as frames do: what comes second starts from the machine that the first has
left, and an error of the first is the end (`ofFrames_append`).  So a run can be taken apart at
its frames.
-/

namespace Threaded

/-- What a run comes to: its result, and the machine it leaves. -/
abbrev Ending := Except Error Unit × Machine

/-- A step with more frames below those of its thread. -/
def Step.append (rest : List Frame) : Step → Step
  | .next t => .next { t with frames := t.frames ++ rest }
  | .done r m => .done r m

namespace Thread

/-! ## Ends -/

/-- The thread ends in a result and leaves a machine. -/
def EndsIn (t : Thread) (o : Ending) : Prop :=
  ∃ fuel, finish fuel t = some o

variable {t : Thread} {o o' : Ending} {m m' : Machine} {frames rest : List Frame}

/-- More fuel does not change an end. -/
theorem finish_mono {fuel fuel' : Nat} (hle : fuel ≤ fuel') (h : finish fuel t = some o) :
    finish fuel' t = some o := by
  induction fuel generalizing t fuel' with
  | zero => cases h
  | succ fuel ih =>
    obtain ⟨fuel', rfl⟩ : ∃ k, fuel' = k + 1 := ⟨fuel' - 1, by omega⟩
    rw [finish] at h ⊢
    split at h
    · exact ih (by omega) h
    · exact h

/-- A thread has one end at most. -/
theorem EndsIn.unique (h : t.EndsIn o) (h' : t.EndsIn o') : o = o' := by
  obtain ⟨fuel, hf⟩ := h
  obtain ⟨fuel', hf'⟩ := h'
  have hmax := finish_mono (Nat.le_max_left fuel fuel') hf
  rw [finish_mono (Nat.le_max_right fuel fuel') hf'] at hmax
  exact (Option.some.inj hmax).symm

/-- A thread ends as it does after its next step. -/
theorem endsIn_iff (t : Thread) (o : Ending) :
    t.EndsIn o ↔
      match t.step with
      | .next t' => t'.EndsIn o
      | .done r m => o = (r, m) := by
  cases ht : t.step with
  | next t' =>
    constructor
    · rintro ⟨fuel, h⟩
      cases fuel with
      | zero => cases h
      | succ fuel =>
        rw [finish, ht] at h
        exact ⟨fuel, h⟩
    · rintro ⟨fuel, h⟩
      refine ⟨fuel + 1, ?_⟩
      rw [finish, ht]
      exact h
  | done r m =>
    constructor
    · rintro ⟨fuel, h⟩
      cases fuel with
      | zero => cases h
      | succ fuel =>
        rw [finish, ht] at h
        exact (Option.some.inj h).symm
    · intro h
      refine ⟨1, ?_⟩
      rw [finish, ht, h]

/-- A thread keeps what there is, however it ends. -/
theorem EndsIn.grows {r : Except Error Unit} (h : t.EndsIn (r, m')) : t.machine.Grows m' := by
  obtain ⟨fuel, hf⟩ := h
  exact (finish_develops hf : Machine.Develops (fun _ => True) t.machine m').grows

/-! ## Points -/

/-- The second thread comes of the first in some number of steps. -/
def Leads : Thread → Thread → Prop :=
  Relation.ReflTransGen fun t t' => t.step = .next t'

/-- Between two points of a run there is what can happen to a machine. -/
theorem Leads.develops {allowed : Primitive → Prop} {t' : Thread} (h : t.Leads t') :
    Machine.Develops allowed t.machine t'.machine := by
  induction h with
  | refl => exact .refl
  | @tail t₁ t₂ _ hstep ih =>
    have hdev : Machine.Develops allowed t₁.machine t₁.step.machine := step_develops t₁
    rw [hstep] at hdev
    exact ih.trans hdev

/-- A thread ends as it does from any of its points. -/
theorem Leads.endsIn_iff {t' : Thread} (h : t.Leads t') : t.EndsIn o ↔ t'.EndsIn o := by
  induction h with
  | refl => exact Iff.rfl
  | @tail t₁ t₂ _ hstep ih =>
    rw [ih, Thread.endsIn_iff t₁, hstep]

/-! ## More frames -/

/-- Going on does not look at the frames below. -/
theorem goOn_append (r : Except Error (List Frame) × Machine) (frames rest : List Frame) :
    goOn r (frames ++ rest) = (goOn r frames).append rest := by
  rcases r with ⟨e | opened, m⟩
  · rfl
  · simp [goOn, Step.append]

/-- The action of an entry does not look at the frames below. -/
theorem enter_append (m : Machine) (body : Array Ref) (ip depth : Nat) (r : Ref)
    (frames rest : List Frame) (e : Entry) :
    enter m body ip depth r (frames ++ rest) e = (enter m body ip depth r frames e).append rest := by
  cases e with
  | literal value => exact goOn_append _ (_ :: frames) rest
  | primitive name action => exact goOn_append _ (_ :: frames) rest
  | compound w =>
    rw [enter, enter]
    split <;> rfl
  | branch offset => exact goOn_append _ frames rest
  | zbranch offset =>
    rw [enter, enter]
    split
    · rfl
    · split
      · exact goOn_append _ frames rest
      · rfl

/-- The frames below the first are not looked at in a step. -/
theorem step_append (m : Machine) (f : Frame) (frames rest : List Frame) :
    step ⟨m, f :: frames ++ rest⟩ = (step ⟨m, f :: frames⟩).append rest := by
  rw [List.cons_append]
  unfold step
  cases f with
  | answer value => exact goOn_append _ frames rest
  | code body ip depth =>
    dsimp only
    split
    · rfl
    · split
      · rfl
      · exact enter_append _ _ _ _ _ _ _ _

/-- A thread that has frames does not succeed in its next step. -/
theorem error_of_step {f : Frame} {r : Except Error Unit}
    (h : step ⟨m, f :: frames⟩ = .done r m') : ∃ e, r = .error e := by
  have hgoOn : ∀ (a : Except Error (List Frame) × Machine) (fs : List Frame),
      goOn a fs = .done r m' → ∃ e, r = .error e := by
    rintro ⟨e | opened, m⟩ fs ha
    · cases ha
      exact ⟨e, rfl⟩
    · cases ha
  unfold step at h
  cases f with
  | answer value => exact hgoOn _ _ h
  | code body ip depth =>
    dsimp only at h
    split at h
    · simp at h
    · split at h
      · cases h
        exact ⟨_, rfl⟩
      · next e he =>
        cases e with
        | literal value => exact hgoOn _ _ h
        | primitive name action => exact hgoOn _ _ h
        | compound w =>
          rw [enter] at h
          split at h
          · cases h
            exact ⟨_, rfl⟩
          · simp at h
        | branch offset => exact hgoOn _ _ h
        | zbranch offset =>
          rw [enter] at h
          split at h
          · cases h
            exact ⟨_, rfl⟩
          · split at h
            · exact hgoOn _ _ h
            · simp at h

end Thread

/-! ## Behaviours -/

/-- How something ends, from every machine it can be started from. -/
def Behaviour := Machine → Ending → Prop

namespace Behaviour

variable {x x' y y' z : Behaviour} {m : Machine} {o : Ending} {frames rest : List Frame}

/-- Nothing to do. -/
def done : Behaviour :=
  fun m o => o = (.ok (), m)

/-- One after the other; an error of the first is the end. -/
def andThen (x y : Behaviour) : Behaviour := fun m o =>
  ∃ r m₁, x m (r, m₁) ∧
    match r with
    | .ok () => y m₁ o
    | .error e => o = (.error e, m₁)

/-- To run frames. -/
def ofFrames (frames : List Frame) : Behaviour :=
  fun m o => Thread.EndsIn ⟨m, frames⟩ o

/-- To do something that opens frames or fails, and to run the frames. -/
def opening (f : Machine → Except Error (List Frame) × Machine) : Behaviour := fun m o =>
  match f m with
  | (.ok frames, m) => ofFrames frames m o
  | (.error e, m) => o = (.error e, m)

/-- No frames do nothing. -/
theorem ofFrames_nil : ofFrames [] m o ↔ done m o :=
  Thread.endsIn_iff ⟨m, []⟩ o

/-- Nothing is done before a behaviour. -/
theorem done_andThen : done.andThen y m o ↔ y m o := by
  constructor
  · rintro ⟨r, m₁, hx, hy⟩
    cases hx
    exact hy
  · intro h
    exact ⟨.ok (), m, rfl, h⟩

/-- Behaviours in turn may be grouped either way. -/
theorem andThen_assoc : (x.andThen y).andThen z m o ↔ x.andThen (y.andThen z) m o := by
  constructor
  · rintro ⟨r, m₂, ⟨r₁, m₁, hx, hy⟩, hz⟩
    refine ⟨r₁, m₁, hx, ?_⟩
    cases r₁ with
    | ok => exact ⟨r, m₂, hy, hz⟩
    | error e =>
      cases hy
      exact hz
  · rintro ⟨r₁, m₁, hx, hyz⟩
    cases r₁ with
    | ok =>
      obtain ⟨r, m₂, hy, hz⟩ := hyz
      exact ⟨r, m₂, ⟨.ok (), m₁, hx, hy⟩, hz⟩
    | error e => exact ⟨.error e, m₁, ⟨.error e, m₁, hx, rfl⟩, hyz⟩

/-- What comes second matters where the first succeeds. -/
theorem andThen_congr (h : ∀ m₁, x m (.ok (), m₁) → (y m₁ o ↔ y' m₁ o)) :
    x.andThen y m o ↔ x.andThen y' m o := by
  constructor <;> rintro ⟨r, m₁, hx, hy⟩ <;> refine ⟨r, m₁, hx, ?_⟩ <;> cases r
  · exact hy
  · exact (h m₁ hx).1 hy
  · exact hy
  · exact (h m₁ hx).2 hy

/-- **Frames follow one another**: those in front are run to their end, and then the rest. -/
theorem ofFrames_append :
    ofFrames (frames ++ rest) m o ↔ (ofFrames frames).andThen (ofFrames rest) m o := by
  constructor
  · rintro ⟨fuel, h⟩
    induction fuel generalizing m frames with
    | zero => cases h
    | succ fuel ih =>
      cases frames with
      | nil => exact ⟨.ok (), m, ⟨1, rfl⟩, ⟨fuel + 1, h⟩⟩
      | cons f frames =>
        rw [Thread.finish, Thread.step_append] at h
        cases hstep : Thread.step ⟨m, f :: frames⟩ with
        | next t =>
          rw [hstep] at h
          obtain ⟨r, m₁, hend, hrest⟩ := ih h
          refine ⟨r, m₁, (Thread.endsIn_iff _ _).2 ?_, hrest⟩
          rw [hstep]
          exact hend
        | done r m₁ =>
          rw [hstep] at h
          obtain ⟨e, rfl⟩ := Thread.error_of_step hstep
          refine ⟨.error e, m₁, (Thread.endsIn_iff _ _).2 ?_, (Option.some.inj h).symm⟩
          rw [hstep]
  · rintro ⟨r, m₁, ⟨fuel, h⟩, hrest⟩
    induction fuel generalizing m frames with
    | zero => cases h
    | succ fuel ih =>
      cases frames with
      | nil =>
        cases h
        exact hrest
      | cons f frames =>
        refine (Thread.endsIn_iff _ _).2 ?_
        rw [Thread.finish] at h
        rw [Thread.step_append]
        cases hstep : Thread.step ⟨m, f :: frames⟩ with
        | next t =>
          rw [hstep] at h
          exact ih h
        | done r' m' =>
          rw [hstep] at h
          obtain ⟨e, rfl⟩ := Thread.error_of_step hstep
          cases h
          exact hrest

/-- A thread that goes on with opened frames ends as these do, and then the rest. -/
theorem endsIn_goOn {t : Thread} {f : Machine → Except Error (List Frame) × Machine}
    (h : t.step = Thread.goOn (f m) rest) :
    t.EndsIn o ↔ (opening f).andThen (ofFrames rest) m o := by
  rw [Thread.endsIn_iff, h]
  unfold Thread.goOn andThen opening
  cases hf : f m with
  | mk r m₁ =>
    cases r with
    | ok frames => exact ofFrames_append
    | error e =>
      constructor
      · intro ho
        exact ⟨.error e, m₁, rfl, ho⟩
      · rintro ⟨r, m₂, hr, ho⟩
        cases hr
        exact ho

end Behaviour

/-! ## What a machine comes to -/

namespace Machine

/-- Running the word ends in a result and leaves a machine. -/
def RunsTo (m : Machine) (w : Word) (o : Ending) : Prop :=
  ∃ fuel, m.run fuel w = some o

/-- Evaluating the line ends in a result and leaves a machine. -/
def EvalsTo (m : Machine) (line : String) (o : Ending) : Prop :=
  ∃ fuel, m.eval fuel line = some o

/-- Executing the line ends in a code or an error and leaves a machine. -/
def ExecsTo (m : Machine) (line : String) (o : Except Error Cell × Machine) : Prop :=
  ∃ fuel, m.exec fuel line = some o

variable {m : Machine} {w : Word} {line : String}

/-- A word that passes the check ends as its frame does. -/
theorem runsTo_iff (h : Jump.check m.dict w.body = .ok ()) (o : Ending) :
    m.RunsTo w o ↔ Behaviour.ofFrames [.code w.body 0 0] m o := by
  have hframes : m.framesOf w = .ok [.code w.body 0 0] := by
    unfold framesOf
    rw [h]
    rfl
  unfold RunsTo run
  simp only [hframes]
  rfl

/-- What evaluating a line comes to is decided by what compiling it comes to. -/
theorem evalsTo_iff (m : Machine) (line : String) (o : Ending) :
    m.EvalsTo line o ↔
      match m.compile line with
      | (.error e, m') => o = (.error e, m')
      | (.ok none, m') => o = (.ok (), m')
      | (.ok (some w), m') => m'.RunsTo w o := by
  unfold EvalsTo eval
  rcases m.compile line with ⟨e | (_ | w), m'⟩
  · exact ⟨fun ⟨_, h⟩ => (Option.some.inj h).symm, fun h => ⟨0, congrArg some h.symm⟩⟩
  · exact ⟨fun ⟨_, h⟩ => (Option.some.inj h).symm, fun h => ⟨0, congrArg some h.symm⟩⟩
  · exact Iff.rfl

/-- What executing a line comes to is decided by what compiling it comes to. -/
theorem execsTo_iff (m : Machine) (line : String) (o : Except Error Cell × Machine) :
    m.ExecsTo line o ↔
      match m.compile line with
      | (.error e, m') => o = (e.folded, m')
      | (.ok none, m') => o = (.ok 0, m')
      | (.ok (some w), m') =>
        ∃ r m'', m'.RunsTo w (r, m'') ∧ o = (r.map fun () => 0, m'') := by
  unfold ExecsTo exec
  rcases m.compile line with ⟨e | (_ | w), m'⟩
  · exact ⟨fun ⟨_, h⟩ => (Option.some.inj h).symm, fun h => ⟨0, congrArg some h.symm⟩⟩
  · exact ⟨fun ⟨_, h⟩ => (Option.some.inj h).symm, fun h => ⟨0, congrArg some h.symm⟩⟩
  · constructor
    · rintro ⟨fuel, h⟩
      obtain ⟨⟨r, m''⟩, hrun, rfl⟩ := Option.map_eq_some_iff.1 h
      exact ⟨r, m'', ⟨fuel, hrun⟩, rfl⟩
    · rintro ⟨r, m'', ⟨fuel, hrun⟩, rfl⟩
      exact ⟨fuel, Option.map_eq_some_iff.2 ⟨_, hrun, rfl⟩⟩

variable {fuel fuel' : Nat}

/-- More fuel does not change what a word comes to, if it comes to anything. -/
theorem run_mono {w : Word} {o : Ending} (hle : fuel ≤ fuel') (h : m.run fuel w = some o) :
    m.run fuel' w = some o := by
  unfold run at h ⊢
  split at h
  · exact h
  · exact Thread.finish_mono hle h

/-- More fuel does not change what a line comes to. -/
theorem exec_mono {o : Except Error Cell × Machine} (hle : fuel ≤ fuel')
    (h : m.exec fuel line = some o) : m.exec fuel' line = some o := by
  unfold exec at h ⊢
  split at h
  · exact h
  · exact h
  · obtain ⟨end', hrun, ho⟩ := Option.map_eq_some_iff.1 h
    rw [run_mono hle hrun, Option.map_some, ho]

/-! ## The thread of a command -/

/-- The thread in which a word is run, if it is. -/
def wordThread? (m : Machine) (w : Word) : Option Thread :=
  match m.framesOf w with
  | .ok frames => some ⟨m, frames⟩
  | .error _ => none

/-- The thread in which a line is run, if it makes a word. -/
def lineThread? (m : Machine) (line : String) : Option Thread :=
  match m.compile line with
  | (.ok (some w), m) => m.wordThread? w
  | _ => none

/-- The thread that a command is run in, if it runs something. -/
def thread? (m : Machine) : Command → Option Thread
  | .run w => m.wordThread? w
  | .eval line | .exec line => m.lineThread? line
  | .execBytes bytes =>
    match Line.ofBytes m.limits.nameLen bytes with
    | .ok line => m.lineThread? line
    | .error _ => none
  | _ => none

variable {m' : Machine} {t : Thread}

/-- A word that passes the check is run by its thread. -/
theorem run_eq_finish (h : m.wordThread? w = some t) : m.run fuel w = t.finish fuel := by
  unfold wordThread? at h
  unfold run
  split at h
  · next frames hf =>
    obtain rfl := Option.some.inj h
    rw [hf]
  · simp at h

/-- A line that compiles to a good word is evaluated by its thread. -/
theorem eval_eq_finish (h : m.lineThread? line = some t) : m.eval fuel line = t.finish fuel := by
  unfold lineThread? at h
  unfold eval
  split at h
  · next hc =>
    rw [hc]
    exact run_eq_finish h
  · simp at h

/-- A line that compiles to a good word is executed by its thread, with the code of success. -/
theorem exec_eq_finish (h : m.lineThread? line = some t) :
    m.exec fuel line = (t.finish fuel).map fun (r, m) => (r.map fun () => 0, m) := by
  unfold lineThread? at h
  unfold exec
  split at h
  · next hc =>
    rw [hc, ← run_eq_finish h]
  · simp at h

/-- **A command that runs something leaves the machine that its thread leaves**, if that ends. -/
theorem obey_eq_finish {c : Command} (h : m.thread? c = some t) :
    (m.obey fuel c).map Prod.snd = (t.finish fuel).map Prod.snd := by
  cases c with
  | run w =>
    rw [obey, run_eq_finish h, Option.map_map]
    rfl
  | eval line =>
    rw [obey, eval_eq_finish h, Option.map_map]
    rfl
  | exec line =>
    rw [obey, exec_eq_finish h, Option.map_map, Option.map_map]
    rfl
  | execBytes bytes =>
    rw [thread?] at h
    split at h
    · next hline =>
      simp only [obey, execBytes, hline]
      rw [exec_eq_finish h, Option.map_map, Option.map_map]
      rfl
    · simp at h
  | _ => simp [thread?] at h

/-- The machine of such a thread has come of that which the command is given to. -/
theorem develops_of_thread? {allowed : Primitive → Prop} {c : Command}
    (h : m.thread? c = some t) : Develops allowed m t.machine := by
  have hword : ∀ {m : Machine} {w : Word}, m.wordThread? w = some t → t.machine = m := by
    intro m w hw
    unfold wordThread? at hw
    split at hw
    · rw [← Option.some.inj hw]
    · simp at hw
  have hline : ∀ {line : String}, m.lineThread? line = some t → Develops allowed m t.machine := by
    intro line hl
    have hcompile : Develops allowed m (m.compile line).2 := .compile line .refl
    unfold lineThread? at hl
    split at hl
    · next hc =>
      rw [hc] at hcompile
      rwa [hword hl]
    · simp at hl
  cases c with
  | run w =>
    rw [hword h]
    exact .refl
  | eval line | exec line => exact hline h
  | execBytes bytes =>
    rw [thread?] at h
    split at h
    · exact hline h
    · simp at h
  | _ => simp [thread?] at h

end Machine

end Threaded
