import Threaded.Proofs.Bench
import Threaded.Proofs.Verdict

/-!
# Words that stay checked

A word is checked once, before it runs, and only the word itself: not the compounds it calls, and
not again when services have added to the dictionary meanwhile.  That this is enough is carried by
two invariants.

* `Dict.Sound`: every compound in the dictionary passes the check there.  It was checked when it
  was defined, and a check that was passed is passed in every larger dictionary, so this is kept by
  everything that can happen to a machine (`Develops.sound`) and every reachable machine has it
  (`Reachable.sound`).
* `Thread.Sound`: besides, every frame of a run is inside a word that passes the check.  One step
  keeps this (`step_sound`), and so does a whole run (`finish_sound`).

The errors in which a step can end are followed at the same time: `Confines` says that the
primitives which are bound keep to certain errors of their own, and then a sound run does.
-/

namespace Threaded

/-! ## Sound dictionaries -/

/-- Every compound passes the check, the NOP of the boot is there, and only allowed primitives are
bound. -/
structure Dict.Sound (allowed : Primitive → Prop) (d : Dict) : Prop where
  nop : d.get? Threaded.nop = some (.primitive "NOP" .nop)
  checked : ∀ r w, d.get? r = some (.compound w) → Jump.check d w.body = .ok ()
  bound : ∀ r name action, d.get? r = some (.primitive name action) → allowed action

namespace Dict.Sound

variable {allowed : Primitive → Prop} {d d' : Dict}

/-- What has no name is neither a compound nor a primitive. -/
theorem extendsUnnamed (h : Sound allowed d) (hgrows : d.ExtendsUnnamed d') :
    Sound allowed d' where
  nop := hgrows.toExtends.get? h.nop
  checked r w hr :=
    hgrows.toExtends.check_eq_ok (h.checked r w (hgrows.get?_of_named hr (Option.some_ne_none _)))
  bound r name action hr := h.bound r name action (hgrows.get?_of_named hr (Option.some_ne_none _))

/-- A word that passes the check can be registered. -/
theorem register_compound (h : Sound allowed d) {w : Word}
    (hw : Jump.check d w.body = .ok ()) : Sound allowed (d.register (.compound w)) where
  nop := (Extends.register d _).get? h.nop
  checked r w' hr := by
    apply (Extends.register d _).check_eq_ok
    rcases Dict.get?_register hr with hr | hr
    · exact h.checked r w' hr
    · cases hr
      exact hw
  bound r name action hr := by
    rcases Dict.get?_register hr with hr | hr
    · exact h.bound r name action hr
    · simp at hr

/-- A primitive that is allowed can be registered. -/
theorem register_primitive (h : Sound allowed d) (name : String) {action : Primitive}
    (ha : allowed action) : Sound allowed (d.register (.primitive name action)) where
  nop := (Extends.register d _).get? h.nop
  checked r w hr := by
    apply (Extends.register d _).check_eq_ok
    rcases Dict.get?_register hr with hr | hr
    · exact h.checked r w hr
    · simp at hr
  bound r name' action' hr := by
    rcases Dict.get?_register hr with hr | hr
    · exact h.bound r name' action' hr
    · cases hr
      exact ha

end Dict.Sound

/-! ## Machines -/

/-- The primitives that a machine always may bind: those of the standard set. -/
def Primitive.Standard : Primitive → Prop
  | .nop | .op _ => True
  | .service _ => False

namespace Machine

variable {allowed : Primitive → Prop} {m m' : Machine}

/-- **Whatever happens to a machine keeps its dictionary sound.** -/
theorem Develops.sound (h : Develops allowed m m') (hm : m.dict.Sound allowed) :
    m'.dict.Sound allowed := by
  induction h with
  | refl => exact hm
  | bench b _ ih => exact ih
  | compile line _ ih => exact ih.extendsUnnamed (compile_extendsUnnamed _ line)
  | bind _ he ih =>
    cases he with
    | primitive _ ha => exact ih.register_primitive _ ha
    | compound _ hw => exact ih.register_compound hw

/-- **Every reachable machine is sound.** -/
theorem Reachable.sound (hstandard : ∀ action, action.Standard → allowed action)
    (h : Reachable (Command.Binds allowed) m) : m.dict.Sound allowed := by
  induction h with
  | boot limits =>
    refine ⟨rfl, ?_, ?_⟩
    · intro r w hr
      rcases Dict.get?_register hr with hr | hr <;> cases hr
    · intro r name action hr
      rcases Dict.get?_register hr with hr | hr
      · cases hr
      · cases hr
        exact hstandard .nop trivial
  | obey fuel _ hc hobey ih =>
    exact (obey_develops (fun op => hstandard (.op op) trivial) hc hobey).sound ih

end Machine

/-! ## Sound frames -/

/-- A frame goes on inside a word that passes the check. -/
def Frame.Sound (d : Dict) : Frame → Prop
  | .code body _ _ => Jump.check d body = .ok ()
  | .answer _ => True

/-- A sound frame stays sound when entries are added. -/
theorem Frame.Sound.extends {d d' : Dict} {f : Frame} (h : f.Sound d) (hgrows : d.Extends d') :
    f.Sound d' := by
  cases f with
  | code body ip depth => exact hgrows.check_eq_ok h
  | answer => trivial

/-- The frames that are opened are sound. -/
def OpensSound (r : Except Error (List Frame) × Machine) : Prop :=
  ∀ frames, r.1 = .ok frames → ∀ f ∈ frames, f.Sound r.2.dict

namespace OpensSound

variable {m : Machine}

/-- An error opens no frame. -/
theorem error (e : Error) : OpensSound (.error e, m) := by
  intro frames h
  simp at h

/-- No frames are sound. -/
theorem nil : OpensSound (.ok [], m) := by
  intro frames h
  simp [← Except.ok.inj h]

/-- Answers may come behind sound frames. -/
theorem append_answer {r : Except Error (List Frame)} (h : OpensSound (r, m)) (value : Cell) :
    OpensSound (r.map (· ++ [.answer value]), m) := by
  rcases r with e | opened
  · exact error e
  · intro frames hframes f hf
    obtain rfl := Except.ok.inj hframes
    rcases List.mem_append.1 hf with hf | hf
    · exact h opened rfl f hf
    · obtain rfl := List.mem_singleton.1 hf
      trivial

/-- The frame of a word is opened only if the word passes the check. -/
theorem framesOf (m : Machine) (w : Word) : OpensSound (m.framesOf w, m) := by
  unfold Machine.framesOf
  cases hc : Jump.check m.dict w.body with
  | error e => exact error e
  | ok =>
    intro frames h f hf
    obtain rfl := Except.ok.inj h
    obtain rfl := List.mem_singleton.1 hf
    exact hc

/-- An action opens no frame. -/
theorem act (m : Machine) (x : Bench.Action Unit) : OpensSound (m.act x) := by
  unfold Machine.act
  generalize m.perform x = r
  rcases r with ⟨e | _, m'⟩
  · exact error e
  · exact nil

/-- A line that is evaluated opens sound frames. -/
theorem evalFrames (m : Machine) (line : String) : OpensSound (m.evalFrames line) := by
  unfold Machine.evalFrames
  generalize m.compile line = r
  rcases r with ⟨e | (_ | w), m'⟩
  · exact error e
  · exact nil
  · exact framesOf m' w

/-- A line that is executed opens sound frames. -/
theorem execFrames (m : Machine) (line : String) : OpensSound (m.execFrames line) := by
  unfold Machine.execFrames
  generalize m.compile line = r
  rcases r with ⟨e | (_ | w), m'⟩
  · show OpensSound (e.folded.map fun code => [.answer code], m')
    unfold Error.folded
    cases e.code with
    | none => exact error e
    | some code => exact append_answer nil code
  · exact append_answer nil 0
  · exact append_answer (framesOf m' w) 0

/-- A service opens sound frames. -/
theorem serve (m : Machine) (r : Ref) (s : Service) : OpensSound (m.serve r s) := by
  cases s with
  | fail e => exact error e
  | eval line => exact evalFrames m line
  | exec line => exact execFrames m line
  | define name =>
    rw [Machine.serve]
    generalize m.perform Bench.pop = popped
    rcases popped with ⟨e | n, m'⟩
    · exact error e
    · dsimp only
      generalize m'.define name n.render = defined
      rcases defined with ⟨e | _, m''⟩
      · exact error e
      · exact nil
  | _ => exact act m _

/-- **A primitive opens sound frames**: a word that it runs is checked first. -/
theorem call (m : Machine) (r : Ref) (action : Primitive) : OpensSound (m.call r action) := by
  cases action with
  | nop => exact nil
  | op op => exact act m _
  | service s => exact serve m r s

end OpensSound

/-! ## Sound runs -/

/-- The allowed primitives, those of the standard set among them, raise errors that satisfy `p`
only, and so do the stack and the limit of calls. -/
structure Confines (allowed : Primitive → Prop) (p : Error → Prop) : Prop where
  standard : ∀ action, action.Standard → allowed action
  underflow : p .stackUnderflow
  overflow : p .stackOverflow
  depth : ∀ n, p (.recursionLimitExceeded n)
  call : ∀ (m : Machine) r action e, m.dict.Sound allowed → allowed action →
    (m.call r action).1 = .error e → p e

/-- An action fails as it does on the bench. -/
theorem Machine.perform_of_act {m : Machine} {x : Bench.Action Unit} {e : Error}
    (h : (m.act x).1 = .error e) : (m.bench.perform x).1 = .error e := by
  unfold act perform at h
  generalize m.bench.perform x = r at h ⊢
  rcases r with ⟨e' | _, b⟩
  · cases h
    rfl
  · cases h

/-- The machine of a thread and all its frames are sound. -/
structure Thread.Sound (allowed : Primitive → Prop) (t : Thread) : Prop where
  dict : t.machine.dict.Sound allowed
  frames : ∀ f ∈ t.frames, f.Sound t.machine.dict

/-- A step goes on inside sound frames, or it ends in an error that satisfies `p`, if in any. -/
def Step.Sound (p : Error → Prop) : Step → Prop
  | .next t => ∀ f ∈ t.frames, f.Sound t.machine.dict
  | .done r _ => ∀ e, r = .error e → p e

namespace Thread

open Machine (Develops)

variable {allowed : Primitive → Prop} {p : Error → Prop} {m : Machine} {rest : List Frame}

/-- What comes behind stays sound when the dictionary grows. -/
theorem goOn_sound {r : Except Error (List Frame) × Machine} (h : OpensSound r)
    (hgrows : m.Grows r.2) (hrest : ∀ f ∈ rest, f.Sound m.dict)
    (herr : ∀ e, r.1 = .error e → p e) : (goOn r rest).Sound p := by
  rcases r with ⟨e | frames, m'⟩
  · intro e' he
    obtain rfl := Except.error.inj he
    exact herr e rfl
  · intro f hf
    rcases List.mem_append.1 hf with hf | hf
    · exact h frames rfl f hf
    · exact (hrest f hf).extends hgrows.dict

/-- A push of a value can only overflow. -/
theorem goOn_push_sound (hp : Confines allowed p) (hrest : ∀ f ∈ rest, f.Sound m.dict)
    (value : Cell) : (goOn (m.act (Bench.push value)) rest).Sound p := by
  apply goOn_sound (.act m _) (.act m _) hrest
  intro e he
  exact Bench.RaisesOnly.push hp.overflow value m.bench e (Machine.perform_of_act he)

/-- A branch in a word that passes the check can be followed. -/
theorem goOn_jump_sound {body : Array Ref} {ip : Nat} {r : Ref} {e : Entry} {offset : Cell}
    (hbody : Jump.check m.dict body = .ok ()) (hr : body[ip]? = some r)
    (he : m.dict.get? r = some e) (ho : e.offset? = some offset)
    (hrest : ∀ f ∈ rest, f.Sound m.dict) (depth : Nat) :
    (goOn (jump body ip depth offset, m) rest).Sound p := by
  obtain ⟨e', he', hjump⟩ := Jump.checkSlot_eq_ok_iff.1 (Jump.check_eq_ok_iff.1 hbody ip r hr)
  obtain rfl : e = e' := Option.some.inj (he.symm.trans he')
  obtain ⟨t, ht⟩ := hjump offset ho
  have hframes : jump body ip depth offset = .ok [.code body t depth] := by
    unfold jump
    rw [ht]
    rfl
  rw [hframes]
  intro f hf
  rcases List.mem_cons.1 hf with rfl | hf
  · exact hbody
  · exact hrest f hf

/-- **An entry of a word that passes the check** acts soundly. -/
theorem enter_sound {body : Array Ref} {ip depth : Nat} {r : Ref} {e : Entry}
    (hp : Confines allowed p) (h : m.dict.Sound allowed)
    (hbody : Jump.check m.dict body = .ok ()) (hr : body[ip]? = some r)
    (he : m.dict.get? r = some e) (hrest : ∀ f ∈ rest, f.Sound m.dict) :
    (enter m body ip depth r rest e).Sound p := by
  have hnext : ∀ f ∈ Frame.code body (ip + 1) depth :: rest, f.Sound m.dict := by
    intro f hf
    rcases List.mem_cons.1 hf with rfl | hf
    · exact hbody
    · exact hrest f hf
  cases e with
  | literal value => exact goOn_push_sound hp hnext value
  | primitive name action =>
    exact goOn_sound (.call m r action) (.call m r action) hnext
      fun e herr => hp.call m r action e h (h.bound r name action he) herr
  | compound w =>
    rw [enter]
    split
    · intro e herr
      obtain rfl := Except.error.inj herr
      exact hp.depth _
    · intro f hf
      rcases List.mem_cons.1 hf with rfl | hf
      · exact h.checked r w he
      · exact hnext f hf
  | branch offset => exact goOn_jump_sound hbody hr he rfl hrest depth
  | zbranch offset =>
    have hdict : (m.perform Bench.pop).2.dict = m.dict := rfl
    have hpop : ∀ e, (m.perform Bench.pop).1 = .error e → p e :=
      Bench.RaisesOnly.pop hp.underflow m.bench
    rw [enter]
    generalize m.perform Bench.pop = popped at hdict hpop ⊢
    rcases popped with ⟨e | n, m'⟩ <;> dsimp only at hdict ⊢
    · intro e' herr
      obtain rfl := Except.error.inj herr
      exact hpop e rfl
    · rw [← hdict] at hbody he hrest hnext
      split
      · exact goOn_jump_sound hbody hr he rfl hrest depth
      · exact hnext

/-- **A step of a sound thread is sound.** -/
theorem step_sound (hp : Confines allowed p) {t : Thread} (h : t.Sound allowed) :
    t.step.Sound p := by
  obtain ⟨m, frames⟩ := t
  unfold step
  rcases frames with _ | ⟨⟨body, ip, depth⟩ | value, rest⟩
  · intro e he
    simp at he
  · have hbody : Jump.check m.dict body = .ok () := h.frames _ List.mem_cons_self
    have hrest : ∀ f ∈ rest, f.Sound m.dict := fun f hf => h.frames f (List.mem_cons_of_mem _ hf)
    dsimp only
    cases hr : body[ip]? with
    | none => exact hrest
    | some r =>
      obtain ⟨e, he, _⟩ := Jump.checkSlot_eq_ok_iff.1 (Jump.check_eq_ok_iff.1 hbody ip r hr)
      have hentry : m.dict.entry r = .ok e := by
        unfold Dict.entry
        rw [he]
      simp only [hentry]
      exact enter_sound hp h.dict hbody hr he hrest
  · exact goOn_push_sound hp (fun f hf => h.frames f (List.mem_cons_of_mem _ hf)) value

/-- **A run of a sound thread ends soundly.** -/
theorem finish_sound (hp : Confines allowed p) {fuel : Nat} {t : Thread}
    {r : Except Error Unit} {m : Machine} (h : t.Sound allowed)
    (hfinish : finish fuel t = some (r, m)) : ∀ e, r = .error e → p e := by
  induction fuel generalizing t with
  | zero => cases hfinish
  | succ fuel ih =>
    have hstep := step_sound hp h
    have hdev : Develops allowed t.machine t.step.machine := step_develops t
    rw [finish] at hfinish
    split at hfinish
    · next t' ht =>
      rw [ht] at hstep hdev
      exact ih ⟨hdev.sound h.dict, hstep⟩ hfinish
    · next r' m' ht =>
      rw [ht] at hstep
      cases hfinish
      exact hstep

end Thread

namespace Machine

variable {allowed : Primitive → Prop} {p : Error → Prop} {m m' : Machine} {fuel : Nat}

/-- **Running a word** keeps a machine sound, and if the word passes the check it is only the run
that can fail. -/
theorem run_sound (hp : Confines allowed p) (h : m.dict.Sound allowed) {w : Word}
    {r : Except Error Unit} (hrun : m.run fuel w = some (r, m')) :
    m'.dict.Sound allowed ∧ (Jump.check m.dict w.body = .ok () → ∀ e, r = .error e → p e) := by
  refine ⟨(run_develops hrun).sound h, ?_⟩
  intro hc
  have hframes : m.framesOf w = .ok [.code w.body 0 0] := by
    unfold framesOf
    rw [hc]
    rfl
  unfold run at hrun
  rw [hframes] at hrun
  exact Thread.finish_sound hp ⟨h, OpensSound.framesOf m w _ hframes⟩ hrun

end Machine

end Threaded
