import Threaded.Proofs.Runs
import Threaded.Proofs.Soundness

/-!
# Steps of the standard set

Where only the standard set is bound, a run opens frames by calls alone, and every entry but a
compound acts on the bench alone: it fails, or it tells with which slot to go on (`Entry.turn?`).
So a step is one of a few things, which are listed once (`Thread.Moves`), with all there is to know
of each.  Neither the dictionary nor the limits change, and there is no answer among the frames,
so a thread that is plain in this sense stays so (`Plain.leads`); and the run of every command is
(`plain_of_thread?`).
-/

namespace Threaded

/-! ## Turns -/

/-- An action on the bench of a machine changes nothing but the bench. -/
theorem Machine.perform_eq_iff {α : Type} {m m' : Machine} {x : Bench.Action α}
    {r : Except Error α} :
    m.perform x = (r, m') ↔ ∃ b, m.bench.perform x = (r, b) ∧ m' = { m with bench := b } := by
  unfold perform
  rcases m.bench.perform x with ⟨r', b⟩
  constructor
  · intro h
    cases h
    exact ⟨b, rfl, rfl⟩
  · rintro ⟨b', h, rfl⟩
    cases h
    rfl

namespace Bench

/-- To go on at the target of a branch in slot `ip` of a word of `len` slots. -/
def follow (ip len : Nat) (offset : Cell) : Action Nat :=
  match Jump.target ip offset len with
  | .ok t => pure t
  | .error e => throw e

/-- To follow a branch does not touch the bench. -/
theorem perform_follow (b : Bench) (ip len : Nat) (offset : Cell) :
    b.perform (follow ip len offset) = (Jump.target ip offset len, b) := by
  unfold follow
  cases Jump.target ip offset len <;> rfl

end Bench

/-- What an entry does in slot `ip` of a word of `len` slots, if that is to act on the bench and to
go on with some slot.  A compound opens a frame, and a service may do more. -/
def Entry.turn? (ip len : Nat) : Entry → Option (Bench.Action Nat)
  | .literal value => some do
    Bench.push value
    return ip + 1
  | .primitive _ .nop => some (pure (ip + 1))
  | .primitive _ (.op op) => some do
    Bench.act op
    return ip + 1
  | .branch offset => some (Bench.follow ip len offset)
  | .zbranch offset => some do
    let n ← Bench.pop
    if n = 0 then Bench.follow ip len offset else return ip + 1
  | .primitive _ (.service _) | .compound _ => none

/-- **What a turn tells**: the next slot, or where a branch lands. -/
theorem Entry.turn_cases {ip ip' len : Nat} {e : Entry} {x : Bench.Action Nat} {b b' : Bench}
    (hx : e.turn? ip len = some x) (h : b.perform x = (.ok ip', b')) :
    ip' = ip + 1 ∨ ∃ offset, e.offset? = some offset ∧ Jump.target ip offset len = .ok ip' := by
  have hthen : ∀ y : Bench.Action Unit, b.perform (do y; return ip + 1) = (.ok ip', b') →
      ip' = ip + 1 := by
    intro y hy
    rw [Bench.perform_bind] at hy
    generalize b.perform y = o at hy
    obtain ⟨e | _, b₁⟩ := o
    · cases hy
    · cases hy
      rfl
  have hfollow : ∀ (b : Bench) offset, b.perform (Bench.follow ip len offset) = (.ok ip', b') →
      Jump.target ip offset len = .ok ip' := by
    intro b offset hb
    rw [Bench.perform_follow] at hb
    exact congrArg Prod.fst hb
  rcases e with ⟨name, _ | op | s⟩ | w | value | offset | offset
  · obtain rfl := Option.some.inj hx
    cases h
    exact .inl rfl
  · obtain rfl := Option.some.inj hx
    exact .inl (hthen _ h)
  · cases hx
  · cases hx
  · obtain rfl := Option.some.inj hx
    exact .inl (hthen _ h)
  · obtain rfl := Option.some.inj hx
    exact .inr ⟨offset, rfl, hfollow b offset h⟩
  · obtain rfl := Option.some.inj hx
    rw [Bench.perform_bind] at h
    generalize b.perform Bench.pop = o at h
    obtain ⟨e | n, b₁⟩ := o
    · cases h
    · dsimp only at h
      split at h
      · exact .inr ⟨offset, rfl, hfollow b₁ offset h⟩
      · cases h
        exact .inl rfl

namespace Thread

/-- The step that goes on in a word, with the slot that a turn has told. -/
def turned (body : Array Ref) (depth : Nat) (rest : List Frame) :
    Except Error Nat × Machine → Step
  | (.ok ip, m) => .next ⟨m, .code body ip depth :: rest⟩
  | (.error e, m) => .done (.error e) m

section Turned

variable {body : Array Ref} {ip depth : Nat} {rest : List Frame}

/-- An action turns to the next slot, as in a step. -/
theorem turned_act (m : Machine) (x : Bench.Action Unit) :
    turned body depth rest (m.perform (do x; return ip)) =
      goOn (m.act x) (.code body ip depth :: rest) := by
  unfold Machine.act Machine.perform
  rw [Bench.perform_bind]
  rcases m.bench.perform x with ⟨e | _, b⟩ <;> rfl

/-- A branch turns to its target, as in a step. -/
theorem turned_follow (m : Machine) (offset : Cell) :
    turned body depth rest (m.perform (Bench.follow ip body.size offset)) =
      goOn (jump body ip depth offset, m) rest := by
  unfold Machine.perform jump
  rw [Bench.perform_follow]
  cases Jump.target ip offset body.size <;> rfl

/-- A turn ends the run in an error if it fails with that error. -/
theorem turned_eq_error_iff {o : Except Error Nat × Machine} {e : Error} {m' : Machine} :
    turned body depth rest o = .done (.error e) m' ↔ o = (.error e, m') := by
  obtain ⟨e' | ip, m⟩ := o <;> simp [turned]

/-- **An entry that has a turn takes it.** -/
theorem enter_of_turn? {m : Machine} {r : Ref} {e : Entry} {x : Bench.Action Nat}
    (hx : e.turn? ip body.size = some x) :
    enter m body ip depth r rest e = turned body depth rest (m.perform x) := by
  cases e with
  | literal value =>
    obtain rfl := Option.some.inj hx
    exact (turned_act m _).symm
  | primitive name action =>
    cases action with
    | nop =>
      obtain rfl := Option.some.inj hx
      rfl
    | op op =>
      obtain rfl := Option.some.inj hx
      exact (turned_act m _).symm
    | service s => simp [Entry.turn?] at hx
  | compound w => simp [Entry.turn?] at hx
  | branch offset =>
    obtain rfl := Option.some.inj hx
    exact (turned_follow m offset).symm
  | zbranch offset =>
    obtain rfl := Option.some.inj hx
    rw [enter]
    unfold Machine.perform
    rw [Bench.perform_bind]
    rcases m.bench.perform Bench.pop with ⟨e | n, b⟩
    · rfl
    · dsimp only
      split
      · exact (turned_follow { m with bench := b } offset).symm
      · rfl

end Turned

/-! ## Moves -/

/-- What a step of a thread can be. -/
inductive Moves : Thread → Step → Prop
  /-- Nothing is left. -/
  | finish (m : Machine) : Moves ⟨m, []⟩ (.done (.ok ()) m)
  /-- The word on top is done. -/
  | back {body : Array Ref} {ip : Nat} (m : Machine) (depth : Nat) (rest : List Frame)
    (hip : body[ip]? = none) : Moves ⟨m, .code body ip depth :: rest⟩ (.next ⟨m, rest⟩)
  /-- The reference in the slot leads to nothing. -/
  | lost {m : Machine} {body : Array Ref} {ip : Nat} {r : Ref} (depth : Nat) (rest : List Frame)
    (hr : body[ip]? = some r) (he : m.dict.get? r = none) :
    Moves ⟨m, .code body ip depth :: rest⟩ (.done (.error (.invalidEntry r)) m)
  /-- A compound is called. -/
  | call {m : Machine} {body : Array Ref} {ip depth : Nat} {r : Ref} {w : Word}
    (rest : List Frame) (hr : body[ip]? = some r) (he : m.dict.get? r = some (.compound w))
    (hroom : depth + 1 ≤ m.limits.maxDepth) :
    Moves ⟨m, .code body ip depth :: rest⟩
      (.next ⟨m, .code w.body 0 (depth + 1) :: .code body (ip + 1) depth :: rest⟩)
  /-- A compound would be called too deep. -/
  | deep {m : Machine} {body : Array Ref} {ip depth : Nat} {r : Ref} {w : Word}
    (rest : List Frame) (hr : body[ip]? = some r) (he : m.dict.get? r = some (.compound w))
    (hdeep : m.limits.maxDepth < depth + 1) :
    Moves ⟨m, .code body ip depth :: rest⟩
      (.done (.error (.recursionLimitExceeded (depth + 1))) m)
  /-- An entry takes its turn. -/
  | turn {m : Machine} {body : Array Ref} {ip : Nat} {r : Ref} {e : Entry}
    {x : Bench.Action Nat} (depth : Nat) (rest : List Frame) (hr : body[ip]? = some r)
    (he : m.dict.get? r = some e) (hx : e.turn? ip body.size = some x) :
    Moves ⟨m, .code body ip depth :: rest⟩ (turned body depth rest (m.perform x))

/-- The entry that acts in the next step, if there is one. -/
def acting? (t : Thread) : Option Entry :=
  match t.frames with
  | .code body ip _ :: _ => body[ip]?.bind t.machine.dict.get?
  | _ => none

variable {t t' : Thread} {e : Entry}

/-- **What the entry in a slot does**, unless it is a service. -/
theorem moves_of_acting? (h : t.acting? = some e)
    (hservice : ∀ name s, e ≠ .primitive name (.service s)) : t.Moves t.step := by
  obtain ⟨m, _ | ⟨⟨body, ip, depth⟩ | value, rest⟩⟩ := t
  · cases h
  · obtain ⟨r, hr, he⟩ := Option.bind_eq_some_iff.1 h
    have he : m.dict.get? r = some e := he
    have hstep : step ⟨m, .code body ip depth :: rest⟩ = enter m body ip depth r rest e := by
      unfold step Dict.entry
      simp only [hr, he]
    have hturn : ∀ x, e.turn? ip body.size = some x →
        Moves ⟨m, .code body ip depth :: rest⟩ (enter m body ip depth r rest e) := by
      intro x hx
      rw [enter_of_turn? hx]
      exact .turn depth rest hr he hx
    rw [hstep]
    rcases e with ⟨name, _ | op | s⟩ | w | value | offset | offset
    · exact hturn _ rfl
    · exact hturn _ rfl
    · exact absurd rfl (hservice name s)
    · rw [enter]
      split
      · next hdeep => exact .deep rest hr he hdeep
      · next hroom => exact .call rest hr he (Nat.le_of_not_lt hroom)
    · exact hturn _ rfl
    · exact hturn _ rfl
    · exact hturn _ rfl
  · cases h

/-- A thread of words, on a machine that has the standard set at most. -/
structure Plain (t : Thread) : Prop where
  bound : ∀ r name action, t.machine.dict.get? r = some (.primitive name action) →
    action.Standard
  words : ∀ f ∈ t.frames, ∃ body ip depth, f = .code body ip depth

/-- **The steps of a plain thread.** -/
theorem Plain.moves (h : t.Plain) : t.Moves t.step := by
  obtain ⟨m, _ | ⟨f, rest⟩⟩ := t
  · exact .finish m
  obtain ⟨body, ip, depth, rfl⟩ := h.words f List.mem_cons_self
  cases hr : body[ip]? with
  | none =>
    have hstep : step ⟨m, .code body ip depth :: rest⟩ = .next ⟨m, rest⟩ := by
      unfold step
      simp only [hr]
    rw [hstep]
    exact .back m depth rest hr
  | some r =>
    cases he : m.dict.get? r with
    | none =>
      have hstep : step ⟨m, .code body ip depth :: rest⟩ =
          .done (.error (.invalidEntry r)) m := by
        unfold step Dict.entry
        simp only [hr, he]
      rw [hstep]
      exact .lost depth rest hr he
    | some e =>
      apply moves_of_acting? (e := e)
      · exact Option.bind_eq_some_iff.2 ⟨r, hr, he⟩
      · rintro name s rfl
        exact h.bound r name _ he

/-- A step changes nothing of the machine but the bench. -/
theorem Moves.machine {s : Step} (h : t.Moves s) :
    ∃ b, s.machine = { t.machine with bench := b } := by
  cases h with
  | finish m | back m | @lost m | @call m | @deep m => exact ⟨m.bench, rfl⟩
  | @turn m body ip r e x depth rest =>
    unfold Machine.perform
    rcases m.bench.perform x with ⟨err | ip', b⟩ <;> exact ⟨b, rfl⟩

/-- A step that goes on leaves a thread of words behind. -/
theorem Moves.words {s : Step} (h : t.Moves s)
    (hwords : ∀ f ∈ t.frames, ∃ body ip depth, f = .code body ip depth) (hs : s = .next t') :
    ∀ f ∈ t'.frames, ∃ body ip depth, f = .code body ip depth := by
  have hrest : ∀ {f rest}, (∀ g ∈ f :: rest, ∃ body ip depth, g = Frame.code body ip depth) →
      ∀ g ∈ rest, ∃ body ip depth, g = Frame.code body ip depth :=
    fun hall g hg => hall g (List.mem_cons_of_mem _ hg)
  cases h with
  | finish | lost | deep => cases hs
  | back =>
    cases hs
    exact hrest hwords
  | call =>
    cases hs
    intro f hf
    rcases List.mem_cons.1 hf with rfl | hf
    · exact ⟨_, _, _, rfl⟩
    rcases List.mem_cons.1 hf with rfl | hf
    · exact ⟨_, _, _, rfl⟩
    · exact hrest hwords f hf
  | @turn m body ip r e x depth rest =>
    generalize m.perform x = o at hs
    obtain ⟨err | ip', m'⟩ := o
    · cases hs
    · cases hs
      intro f hf
      rcases List.mem_cons.1 hf with rfl | hf
      · exact ⟨_, _, _, rfl⟩
      · exact hrest hwords f hf

/-- **What holds of each word and its depth** goes on to hold after a step, if it goes from a word
to the compounds in its slots, one level deeper within the limit. -/
theorem Moves.forall_code {s : Step} {P : Array Ref → Nat → Prop} (h : t.Moves s)
    (hs : s = .next t')
    (hcall : ∀ body depth r w, P body depth → r ∈ body →
      t.machine.dict.get? r = some (.compound w) → depth + 1 ≤ t.machine.limits.maxDepth →
        P w.body (depth + 1))
    (hP : ∀ body ip depth, .code body ip depth ∈ t.frames → P body depth) :
    ∀ body ip depth, .code body ip depth ∈ t'.frames → P body depth := by
  cases h with
  | finish | lost | deep => cases hs
  | back m depth rest hip =>
    cases hs
    intro body' ip' depth' hf
    exact hP body' ip' depth' (List.mem_cons_of_mem _ hf)
  | @call m body ip depth r w rest hr he hroom =>
    cases hs
    intro body' ip' depth' hf
    have htop := hP body ip depth List.mem_cons_self
    rcases List.mem_cons.1 hf with heq | hf
    · cases heq
      exact hcall body depth r w htop (Array.mem_of_getElem? hr) he hroom
    rcases List.mem_cons.1 hf with heq | hf
    · cases heq
      exact htop
    · exact hP body' ip' depth' (List.mem_cons_of_mem _ hf)
  | @turn m body ip r e x depth rest hr he hx =>
    generalize m.perform x = o at hs
    obtain ⟨err | ip₁, m₁⟩ := o
    · cases hs
    · cases hs
      intro body' ip' depth' hf
      rcases List.mem_cons.1 hf with heq | hf
      · cases heq
        exact hP body ip depth List.mem_cons_self
      · exact hP body' ip' depth' (List.mem_cons_of_mem _ hf)

/-- A step of a plain thread leaves the dictionary and the limits. -/
theorem Plain.step (h : t.Plain) :
    t.step.machine.dict = t.machine.dict ∧ t.step.machine.limits = t.machine.limits := by
  obtain ⟨b, hb⟩ := h.moves.machine
  exact ⟨by rw [hb], by rw [hb]⟩

/-- After a step a plain thread is plain. -/
theorem Plain.next (h : t.Plain) (hs : t.step = .next t') :
    t'.Plain ∧ t'.machine.dict = t.machine.dict ∧ t'.machine.limits = t.machine.limits := by
  have hstep := h.step
  rw [hs] at hstep
  obtain ⟨hdict, hlimits⟩ : t'.machine.dict = t.machine.dict ∧
      t'.machine.limits = t.machine.limits := hstep
  refine ⟨⟨?_, h.moves.words h.words hs⟩, hdict, hlimits⟩
  rw [hdict]
  exact h.bound

/-- **A plain thread stays plain**, and its dictionary and its limits stay as they are. -/
theorem Plain.leads (h : t.Plain) (hleads : t.Leads t') :
    t'.Plain ∧ t'.machine.dict = t.machine.dict ∧ t'.machine.limits = t.machine.limits := by
  induction hleads with
  | refl => exact ⟨h, rfl, rfl⟩
  | tail _ hs ih =>
    obtain ⟨hplain, hdict, hlimits⟩ := ih
    obtain ⟨hplain', hdict', hlimits'⟩ := hplain.next hs
    exact ⟨hplain', hdict'.trans hdict, hlimits'.trans hlimits⟩

/-- A thread that ends has come to its last step before. -/
theorem EndsIn.exists_leads {o : Ending} (h : t.EndsIn o) :
    ∃ t', t.Leads t' ∧ t'.step = .done o.1 o.2 := by
  obtain ⟨fuel, h⟩ := h
  induction fuel generalizing t with
  | zero => cases h
  | succ fuel ih =>
    rw [finish] at h
    split at h
    · next t₁ hs =>
      obtain ⟨t', hleads, hdone⟩ := ih h
      exact ⟨t', .head hs hleads, hdone⟩
    · next r m hs =>
      obtain rfl := Option.some.inj h
      exact ⟨t, .refl, hs⟩

/-- A plain thread ends with the dictionary and the limits it began with. -/
theorem Plain.endsIn {o : Ending} (h : t.Plain) (hends : t.EndsIn o) :
    o.2.dict = t.machine.dict ∧ o.2.limits = t.machine.limits := by
  obtain ⟨t', hleads, hs⟩ := hends.exists_leads
  obtain ⟨hplain, hdict, hlimits⟩ := h.leads hleads
  have hstep := hplain.step
  rw [hs] at hstep
  exact ⟨hstep.1.trans hdict, hstep.2.trans hlimits⟩

end Thread

/-! ## The threads of commands -/

namespace Machine

variable {m : Machine} {c : Command} {t : Thread} {w : Word} {line : String} {fuel : Nat}

/-- The thread of a word is at its first slot, and the word passes the check. -/
theorem of_wordThread? (h : m.wordThread? w = some t) :
    t = ⟨m, [.code w.body 0 0]⟩ ∧ Jump.check m.dict w.body = .ok () := by
  unfold wordThread? framesOf at h
  cases hc : Jump.check m.dict w.body with
  | error e =>
    rw [hc] at h
    cases h
  | ok =>
    rw [hc] at h
    exact ⟨(Option.some.inj h).symm, rfl⟩

/-- The thread of a line is at the first slot of a word that passes the check. -/
theorem of_lineThread? (h : m.lineThread? line = some t) :
    t.machine = (m.compile line).2 ∧
      ∃ w : Word, t.frames = [.code w.body 0 0] ∧ Jump.check t.machine.dict w.body = .ok () := by
  unfold lineThread? at h
  split at h
  · next w m₁ hc =>
    obtain ⟨rfl, hcheck⟩ := of_wordThread? h
    exact ⟨by rw [hc], w, rfl, hcheck⟩
  · simp at h

/-- **The thread of a command** starts with a word that passes the check, nested in nothing, and on
the machine that compiling a line has left, if a line is compiled. -/
theorem of_thread? (h : m.thread? c = some t) :
    (t.machine = m ∨ ∃ line, t.machine = (m.compile line).2) ∧
      ∃ w : Word, t.frames = [.code w.body 0 0] ∧ Jump.check t.machine.dict w.body = .ok () := by
  have hline : ∀ {line : String}, m.lineThread? line = some t →
      (t.machine = m ∨ ∃ line, t.machine = (m.compile line).2) ∧
        ∃ w : Word, t.frames = [.code w.body 0 0] ∧ Jump.check t.machine.dict w.body = .ok () :=
    fun hl => ⟨.inr ⟨_, (of_lineThread? hl).1⟩, (of_lineThread? hl).2⟩
  cases c with
  | run w =>
    obtain ⟨rfl, hcheck⟩ := of_wordThread? h
    exact ⟨.inl rfl, w, rfl, hcheck⟩
  | eval line | exec line => exact hline h
  | execBytes bytes =>
    rw [thread?] at h
    split at h
    · exact hline h
    · cases h
  | _ => cases h

/-- Where the host binds the standard set at most, every command is run plainly. -/
theorem plain_of_thread? (h : Reachable (Command.Binds Primitive.Standard) m)
    (ht : m.thread? c = some t) : t.Plain := by
  have hsound : m.dict.Sound Primitive.Standard := h.sound fun _ hstandard => hstandard
  have hsound' := (develops_of_thread? ht).sound hsound
  obtain ⟨_, w, hframes, _⟩ := of_thread? ht
  refine ⟨hsound'.bound, ?_⟩
  rw [hframes]
  intro f hf
  exact ⟨_, _, _, List.mem_singleton.1 hf⟩

/-- A word is run in its thread, or it does not pass the check and nothing happens. -/
theorem run_cases {o : Ending} (h : m.run fuel w = some o) :
    (∃ t, m.wordThread? w = some t ∧ t.finish fuel = some o) ∨
      ∃ e, Jump.check m.dict w.body = .error e ∧ o = (.error e, m) := by
  cases hc : Jump.check m.dict w.body with
  | ok =>
    have hthread : m.wordThread? w = some ⟨m, [.code w.body 0 0]⟩ := by
      unfold wordThread? framesOf
      rw [hc]
      rfl
    exact .inl ⟨_, hthread, run_eq_finish hthread ▸ h⟩
  | error e =>
    unfold run framesOf at h
    rw [hc] at h
    exact .inr ⟨e, rfl, (Option.some.inj h).symm⟩

/-- A line that makes a word is run. -/
theorem compile_ne_word (h : m.lineThread? line = none) (w : Word) (m' : Machine) :
    m.compile line ≠ (.ok (some w), m') := by
  intro hc
  unfold lineThread? wordThread? at h
  rw [hc] at h
  simp only [framesOf_of_compile hc] at h
  cases h

/-- A line is run in its thread, or nothing of it is run, and it fails only if it does not
compile. -/
theorem eval_cases {r : Except Error Unit} {m' : Machine} (h : m.eval fuel line = some (r, m')) :
    (∃ t, m.lineThread? line = some t ∧ t.finish fuel = some (r, m')) ∨
      m' = (m.compile line).2 ∧ ∀ e, r = .error e → (m.compile line).1 = .error e := by
  cases ht : m.lineThread? line with
  | some t => exact .inl ⟨t, rfl, eval_eq_finish ht ▸ h⟩
  | none =>
    right
    unfold eval at h
    rcases hc : m.compile line with ⟨e | (_ | w), m₁⟩
    · rw [hc] at h
      cases h
      exact ⟨rfl, fun e' he => congrArg Except.error (Except.error.inj he)⟩
    · rw [hc] at h
      cases h
      exact ⟨rfl, nofun⟩
    · exact absurd hc (compile_ne_word ht w m₁)

/-- The same of executing a line, which folds what has a code. -/
theorem exec_cases {r : Except Error Cell} {m' : Machine} (h : m.exec fuel line = some (r, m')) :
    (∃ t r', m.lineThread? line = some t ∧ t.finish fuel = some (r', m') ∧
        r = r'.map fun () => 0) ∨
      m' = (m.compile line).2 ∧ ∀ e, r = .error e → (m.compile line).1 = .error e := by
  cases ht : m.lineThread? line with
  | some t =>
    rw [exec_eq_finish ht] at h
    obtain ⟨⟨r', m₁⟩, hfinish, heq⟩ := Option.map_eq_some_iff.1 h
    cases heq
    exact .inl ⟨t, r', rfl, hfinish, rfl⟩
  | none =>
    right
    unfold exec at h
    rcases hc : m.compile line with ⟨e | (_ | w), m₁⟩
    · rw [hc] at h
      cases h
      refine ⟨rfl, fun e' he => ?_⟩
      unfold Error.folded at he
      split at he
      · cases he
      · exact congrArg Except.error (Except.error.inj he)
    · rw [hc] at h
      cases h
      exact ⟨rfl, nofun⟩
    · exact absurd hc (compile_ne_word ht w m₁)

end Machine

end Threaded
