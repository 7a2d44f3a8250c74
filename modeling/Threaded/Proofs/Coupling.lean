import Threaded.Proofs.Alike
import Threaded.Proofs.Runs

/-!
# Runs that are coupled

Two runs of words that stand for one another go in step for different reasons: because the words
are the same, because one machine has more room than the other, or because one run is a call of what
the other runs directly.  What these have in common is a **coupling** (`Coupling`).  It says on what
machines the runs go, which references stand for which, which benches correspond to one another, and
how deep the frames that correspond may be nested; and it may excuse some errors of the first run,
after which nothing is said of the second.

If a coupling is lawful, threads that are coupled step to threads that are coupled (`step_coupled`).
So the first breaks off with an error that is excused, or both come to the same end, or both to none
(`finish_coupled`).  The law asks for no more than what can be in the slots of the words that run.
Where all elementary actions on a bench are in step that is only the calls, since all operations of
the standard set are made of those actions (`Lawful.of_elementary`).
-/

namespace Threaded

/-! ## Benches -/

namespace Bench

variable {α β : Type} {rel : Bench → Bench → Prop} {excused : Error → Prop}

/-- On benches that are related the action fails on the first with an error that is excused, or it
comes to the same on both and leaves benches that are related. -/
def InStep (rel : Bench → Bench → Prop) (excused : Error → Prop) (x : Action α) : Prop :=
  ∀ b b', rel b b' →
    (∃ e, (b.perform x).1 = .error e ∧ excused e) ∨
      (b.perform x).1 = (b'.perform x).1 ∧ rel (b.perform x).2 (b'.perform x).2

namespace InStep

variable {x : Action α} {f : α → Action β}

/-- A value keeps benches in step. -/
theorem pure (a : α) : InStep rel excused (pure a : Action α) :=
  fun _ _ h => .inr ⟨rfl, h⟩

/-- A failure keeps benches in step. -/
theorem throw (e : Error) : InStep rel excused (throw e : Action α) :=
  fun _ _ h => .inr ⟨rfl, h⟩

/-- Actions in step may follow one another. -/
theorem bind (hx : InStep rel excused x) (hf : ∀ a, InStep rel excused (f a)) :
    InStep rel excused (x >>= f) := by
  intro b b' h
  have hfirst := hx b b' h
  rw [perform_bind, perform_bind]
  generalize b.perform x = o, b'.perform x = o' at hfirst ⊢
  obtain ⟨r, b₁⟩ := o
  obtain ⟨r', b₁'⟩ := o'
  rcases hfirst with ⟨e, he, hexcused⟩ | ⟨hresult, hbench⟩
  · obtain rfl : r = .error e := he
    exact .inl ⟨e, rfl, hexcused⟩
  · obtain rfl : r = r' := hresult
    cases r with
    | ok a => exact hf a b₁ b₁' hbench
    | error e => exact .inr ⟨rfl, hbench⟩

/-- An action that goes on from what it sees of the bench. -/
theorem look {γ : Type} (see : Bench → γ) (f : γ → Action β)
    (hsee : ∀ b b', rel b b' → see b = see b') (hf : ∀ c, InStep rel excused (f c)) :
    InStep rel excused (do f (see (← get))) := by
  intro b b' h
  have hget : ∀ b : Bench, b.perform (do f (see (← get))) = b.perform (f (see b)) :=
    fun b => perform_bind b get _
  rw [hget, hget, hsee b b' h]
  exact hf _ b b' h

end InStep

/-- The operations are made of a few actions, apart from the one that prints the whole stack. -/
theorem inStep_act (hpush : ∀ n, InStep rel excused (push n)) (hpop : InStep rel excused pop)
    (hpeek : ∀ i, InStep rel excused (peek i)) (hprint : ∀ text, InStep rel excused (print text))
    {op : Op} (hstack : op = .printStack → InStep rel excused (act .printStack)) :
    InStep rel excused (act op) := by
  have hunary : ∀ f, InStep rel excused (unary f) := fun f => hpop.bind fun _ => hpush _
  have hbinary : ∀ f, InStep rel excused (binary f) := fun f =>
    hpop.bind fun _ => hpop.bind fun _ => hpush _
  have hdividing : ∀ f, InStep rel excused (dividing f) := by
    intro f
    refine hpop.bind fun b => hpop.bind fun a => ?_
    split
    · exact .throw _
    · exact hpush _
  cases op with
  | add | sub | mul | eq | lt | gt => exact hbinary _
  | div | mod => exact hdividing _
  | neg | not => exact hunary _
  | dup | «over» => exact (hpeek _).bind hpush
  | drop => exact hpop.bind fun _ => .pure _
  | swap => exact hpop.bind fun b => hpop.bind fun a => (hpush b).bind fun _ => hpush a
  | printTop => exact hpop.bind fun _ => hprint _
  | printStack => exact hstack rfl

/-- The actions that all others are made of are in step. -/
structure Elementary (rel : Bench → Bench → Prop) (excused : Error → Prop) : Prop where
  push : ∀ n, InStep rel excused (push n)
  pop : InStep rel excused pop
  print : ∀ text, InStep rel excused (print text)
  items : ∀ b b', rel b b' → b.stack.items = b'.stack.items

namespace Elementary

/-- A look below the top keeps benches in step. -/
theorem peek (h : Elementary rel excused) (i : Nat) : InStep rel excused (peek i) := by
  intro b b' hrel
  have hitem : b.stack.get? i = b'.stack.get? i := by simp only [Stack.get?, h.items b b' hrel]
  rw [perform_peek, perform_peek, hitem]
  cases b'.stack.get? i <;> exact .inr ⟨rfl, hrel⟩

/-- **All operations are in step** if the elementary actions are. -/
theorem act (h : Elementary rel excused) (op : Op) : InStep rel excused (act op) := by
  refine inStep_act h.push h.pop h.peek h.print fun _ => ?_
  refine .look (fun b => stackLine b.stack) Bench.print ?_ h.print
  intro b b' hrel
  simp only [stackLine, Stack.depth, Stack.toList, h.items b b' hrel]

end Elementary

end Bench

/-! ## Couplings -/

/-- How two runs are coupled. -/
structure Coupling where
  /-- The limits of the first machine. -/
  limits : Limits
  /-- The limits of the second machine. -/
  limits' : Limits
  /-- The dictionary of the first machine, which no step changes. -/
  dict : Dict
  /-- The dictionary of the second machine. -/
  dict' : Dict
  refs : Renaming
  benches : Bench → Bench → Prop
  /-- How deep a frame with these slots may be nested, and the frame that corresponds to it. -/
  levels : Array Ref → Nat → Nat → Prop
  /-- The errors with which the first run may break off. -/
  excused : Error → Prop

/-- What makes a coupling last. -/
structure Coupling.Lawful (C : Coupling) : Prop where
  entries : C.dict.Matches C.refs C.dict'
  push : ∀ n, Bench.InStep C.benches C.excused (Bench.push n)
  pop : Bench.InStep C.benches C.excused Bench.pop
  op : ∀ body depth depth', C.levels body depth depth' → ∀ r ∈ body, ∀ name op,
    C.dict.get? r = some (.primitive name (.op op)) →
      Bench.InStep C.benches C.excused (Bench.act op)
  /-- A call is open to both, or the first run is excused, or it is refused alike. -/
  call : ∀ body depth depth', C.levels body depth depth' → ∀ r ∈ body, ∀ w,
    C.dict.get? r = some (.compound w) →
      if C.limits.maxDepth < depth + 1 then
        C.excused (.recursionLimitExceeded (depth + 1)) ∨
          C.limits'.maxDepth < depth' + 1 ∧ depth = depth'
      else depth' + 1 ≤ C.limits'.maxDepth ∧ C.levels w.body (depth + 1) (depth' + 1)

/-- Where the elementary actions are in step, only the calls remain. -/
theorem Coupling.Lawful.of_elementary {C : Coupling} (entries : C.dict.Matches C.refs C.dict')
    (elementary : Bench.Elementary C.benches C.excused)
    (call : ∀ body depth depth', C.levels body depth depth' → ∀ r ∈ body, ∀ w,
      C.dict.get? r = some (.compound w) →
        if C.limits.maxDepth < depth + 1 then
          C.excused (.recursionLimitExceeded (depth + 1)) ∨
            C.limits'.maxDepth < depth' + 1 ∧ depth = depth'
        else depth' + 1 ≤ C.limits'.maxDepth ∧ C.levels w.body (depth + 1) (depth' + 1)) :
    C.Lawful where
  entries := entries
  push := elementary.push
  pop := elementary.pop
  op _ _ _ _ _ _ _ op _ := elementary.act op
  call := call

section Coupled

variable (C : Coupling)

/-- Machines that belong to the two runs. -/
structure Machine.Coupled (m m' : Machine) : Prop where
  limits : m.limits = C.limits
  limits' : m'.limits = C.limits'
  dict : m.dict = C.dict
  dict' : m'.dict = C.dict'
  bench : C.benches m.bench m'.bench

/-- Frames that go on in the same slot of words that stand for one another. -/
inductive Frame.Coupled : Frame → Frame → Prop
  | code {body body' : Array Ref} (ip : Nat) {depth depth' : Nat}
    (hbody : List.Forall₂ C.refs body.toList body'.toList) (hlevel : C.levels body depth depth') :
    Coupled (.code body ip depth) (.code body' ip depth')
  | answer (value : Cell) : Coupled (.answer value) (.answer value)

/-- Threads of coupled machines whose frames are coupled. -/
structure Thread.Coupled (t t' : Thread) : Prop where
  machine : Machine.Coupled C t.machine t'.machine
  frames : List.Forall₂ (Frame.Coupled C) t.frames t'.frames

/-- Both go on coupled, or both are over with the same result, or the first is excused. -/
inductive Step.Coupled : Step → Step → Prop
  | next {t t' : Thread} (h : Thread.Coupled C t t') : Coupled (.next t) (.next t')
  | done (r : Except Error Unit) {m m' : Machine} (h : Machine.Coupled C m m') :
    Coupled (.done r m) (.done r m')
  | excused {e : Error} (he : C.excused e) (m : Machine) (s : Step) :
    Coupled (.done (.error e) m) s

/-- The same result, on coupled machines. -/
structure Ending.Coupled (o o' : Ending) : Prop where
  result : o.1 = o'.1
  machine : Machine.Coupled C o.2 o'.2

end Coupled

variable {C : Coupling} {m m' : Machine} {rest rest' : List Frame} {body body' : Array Ref}
  {ip depth depth' : Nat}

/-- **An action in step** is excused or leaves coupled machines. -/
theorem Machine.Coupled.perform {α : Type} {x : Bench.Action α} (h : Machine.Coupled C m m')
    (hx : Bench.InStep C.benches C.excused x) :
    (∃ e, (m.perform x).1 = .error e ∧ C.excused e) ∨
      (m.perform x).1 = (m'.perform x).1 ∧
        Machine.Coupled C (m.perform x).2 (m'.perform x).2 :=
  (hx _ _ h.bench).imp id fun hsame =>
    ⟨hsame.1, h.limits, h.limits', h.dict, h.dict', hsame.2⟩

namespace Thread

/-- An action that keeps benches in step keeps threads coupled. -/
theorem goOn_act_coupled {x : Bench.Action Unit} (hx : Bench.InStep C.benches C.excused x)
    (hm : Machine.Coupled C m m') (hrest : List.Forall₂ (Frame.Coupled C) rest rest') :
    Step.Coupled C (goOn (m.act x) rest) (goOn (m'.act x) rest') := by
  have hperform := hm.perform hx
  unfold Machine.act
  generalize m.perform x = o, m'.perform x = o' at hperform ⊢
  obtain ⟨r, m₁⟩ := o
  obtain ⟨r', m₁'⟩ := o'
  rcases hperform with ⟨e, he, hexcused⟩ | ⟨hresult, hcoupled⟩
  · obtain rfl : r = .error e := he
    exact .excused hexcused _ _
  · obtain rfl : r = r' := hresult
    cases r with
    | ok => exact .next ⟨hcoupled, hrest⟩
    | error e => exact .done _ hcoupled

/-- Branches go to the same slot. -/
theorem goOn_jump_coupled (hbody : List.Forall₂ C.refs body.toList body'.toList)
    (hlevel : C.levels body depth depth') (hm : Machine.Coupled C m m')
    (hrest : List.Forall₂ (Frame.Coupled C) rest rest') (ip : Nat) (offset : Cell) :
    Step.Coupled C (goOn (jump body ip depth offset, m) rest)
      (goOn (jump body' ip depth' offset, m') rest') := by
  have hsize : body.size = body'.size := hbody.length_eq
  unfold jump
  rw [hsize]
  cases Jump.target ip offset body'.size with
  | ok t => exact .next ⟨hm, .cons (.code t hbody hlevel) hrest⟩
  | error e => exact .done _ hm

/-- **Entries that are alike act coupled.** -/
theorem enter_coupled (hC : C.Lawful) (hm : Machine.Coupled C m m')
    (hbody : List.Forall₂ C.refs body.toList body'.toList) (hlevel : C.levels body depth depth')
    (hrest : List.Forall₂ (Frame.Coupled C) rest rest') {r : Ref} (hr : r ∈ body) (r' : Ref)
    {e e' : Entry} (hget : m.dict.get? r = some e) (he : e.Alike C.refs e') :
    Step.Coupled C (enter m body ip depth r rest e) (enter m' body' ip depth' r' rest' e') := by
  have hnext : List.Forall₂ (Frame.Coupled C) (.code body (ip + 1) depth :: rest)
      (.code body' (ip + 1) depth' :: rest') := .cons (.code _ hbody hlevel) hrest
  cases he with
  | @primitive name action h =>
    cases action with
    | nop => exact .next ⟨hm, hnext⟩
    | op op =>
      rw [hm.dict] at hget
      exact goOn_act_coupled (hC.op body depth depth' hlevel r hr name op hget) hm hnext
    | service s => exact h.elim
  | @compound w w' hw =>
    rw [hm.dict] at hget
    have hcall := hC.call body depth depth' hlevel r hr w hget
    rw [enter, enter, hm.limits, hm.limits']
    split at hcall
    · next hdeep =>
      rw [if_pos hdeep]
      rcases hcall with hexcused | ⟨hdeep', rfl⟩
      · exact .excused hexcused _ _
      · rw [if_pos hdeep']
        exact .done _ hm
    · next hdeep =>
      rw [if_neg hdeep, if_neg (Nat.not_lt_of_le hcall.1)]
      exact .next ⟨hm, .cons (.code _ hw.body hcall.2) hnext⟩
  | literal value => exact goOn_act_coupled (hC.push value) hm hnext
  | branch offset => exact goOn_jump_coupled hbody hlevel hm hrest ip offset
  | zbranch offset =>
    have hperform := hm.perform hC.pop
    rw [enter, enter]
    generalize m.perform Bench.pop = o, m'.perform Bench.pop = o' at hperform ⊢
    obtain ⟨popped, m₁⟩ := o
    obtain ⟨popped', m₁'⟩ := o'
    rcases hperform with ⟨e, he, hexcused⟩ | ⟨hresult, hcoupled⟩
    · obtain rfl : popped = .error e := he
      exact .excused hexcused _ _
    · obtain rfl : popped = popped' := hresult
      cases popped with
      | error e => exact .done _ hcoupled
      | ok n =>
        dsimp only
        split
        · exact goOn_jump_coupled hbody hlevel hcoupled hrest ip offset
        · exact .next ⟨hcoupled, hnext⟩

/-- Slots of words that stand for one another do so too. -/
theorem getElem?_rel {R : Renaming} {rs rs' : List Ref} (h : List.Forall₂ R rs rs') :
    (i : Nat) → Option.Rel R rs[i]? rs'[i]? := by
  induction h with
  | nil => exact fun _ => .none
  | cons hr _ ih =>
    intro i
    cases i with
    | zero => exact .some hr
    | succ i => exact ih i

/-- **Coupled threads step to coupled threads.** -/
theorem step_coupled (hC : C.Lawful) {t t' : Thread} (h : Thread.Coupled C t t') :
    Step.Coupled C t.step t'.step := by
  obtain ⟨m, frames⟩ := t
  obtain ⟨m', frames'⟩ := t'
  have hm : Machine.Coupled C m m' := h.machine
  have hframes : List.Forall₂ (Frame.Coupled C) frames frames' := h.frames
  unfold step
  cases hframes with
  | nil => exact .done _ hm
  | cons hf hrest =>
    cases hf with
    | answer value => exact goOn_act_coupled (hC.push value) hm hrest
    | @code body body' ip depth depth' hbody hlevel =>
      have hslot := getElem?_rel hbody ip
      rw [Array.getElem?_toList, Array.getElem?_toList] at hslot
      dsimp only
      generalize hr : body[ip]? = slot, body'[ip]? = slot' at hslot ⊢
      cases hslot with
      | none => exact .next ⟨hm, hrest⟩
      | @some r r' hrel =>
        obtain ⟨e, e', he, he', halike⟩ := hC.entries r r' hrel
        rw [← hm.dict] at he
        rw [← hm.dict'] at he'
        have hentry : m.dict.entry r = .ok e := by
          simp only [Dict.entry, he]
        have hentry' : m'.dict.entry r' = .ok e' := by
          simp only [Dict.entry, he']
        simp only [hentry, hentry']
        exact enter_coupled hC hm hbody hlevel hrest (Array.mem_of_getElem? hr) r' he halike

/-- **Coupled threads come to the same end, or to none**, unless the first is excused. -/
theorem finish_coupled (hC : C.Lawful) : (fuel : Nat) → {t t' : Thread} → Thread.Coupled C t t' →
    (∃ e m, finish fuel t = some (.error e, m) ∧ C.excused e) ∨
      Option.Rel (Ending.Coupled C) (finish fuel t) (finish fuel t')
  | 0, _, _, _ => .inr .none
  | fuel + 1, t, t', h => by
    have hstep := step_coupled hC h
    rw [finish, finish]
    generalize t.step = s, t'.step = s' at hstep ⊢
    cases hstep with
    | next hnext => exact finish_coupled hC fuel hnext
    | done r hm => exact .inr (.some ⟨rfl, hm⟩)
    | excused he m s => exact .inl ⟨_, m, rfl, he⟩

/-- What ends is coupled: the first thread is excused, or each end of the one is coupled to an end
of the other. -/
theorem Coupled.endsIn (hC : C.Lawful) {t t' : Thread} (h : Thread.Coupled C t t') :
    (∃ e m, t.EndsIn (.error e, m) ∧ C.excused e) ∨
      (∀ o, t.EndsIn o → ∃ o', t'.EndsIn o' ∧ Ending.Coupled C o o') ∧
        ∀ o', t'.EndsIn o' → ∃ o, t.EndsIn o ∧ Ending.Coupled C o o' := by
  by_cases hexcused : ∃ e m, t.EndsIn (.error e, m) ∧ C.excused e
  · exact .inl hexcused
  have hrel : ∀ fuel, Option.Rel (Ending.Coupled C) (finish fuel t) (finish fuel t') := by
    intro fuel
    rcases finish_coupled hC fuel h with ⟨e, m, hend, he⟩ | hrel
    · exact absurd ⟨e, m, ⟨fuel, hend⟩, he⟩ hexcused
    · exact hrel
  refine .inr ⟨?_, ?_⟩
  · rintro o ⟨fuel, hfuel⟩
    have hends := hrel fuel
    rw [hfuel] at hends
    generalize hright : finish fuel t' = o' at hends
    cases hends with
    | some hend => exact ⟨_, ⟨fuel, hright⟩, hend⟩
  · rintro o' ⟨fuel, hfuel⟩
    have hends := hrel fuel
    rw [hfuel] at hends
    generalize hleft : finish fuel t = o at hends
    cases hends with
    | some hend => exact ⟨_, ⟨fuel, hleft⟩, hend⟩

end Thread

end Threaded
