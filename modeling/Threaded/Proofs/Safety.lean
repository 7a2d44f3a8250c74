import Threaded.Proofs.Soundness

/-!
# No wild jumps

A run is **blamed on a slot** when a reference leads to nothing or a jump leads outside its word.
A service could raise such an error of its own accord, as an error it fails with or for a branch in
a line that it compiles; one that does not is `Blameless`, and the services of the host are
(`blameless_hostServices`).  `run_safe` says that with blameless primitives a run fails at once
with the first fault of its word, or never is blamed on a slot, at whatever depth; and with the
standard set alone, that it can only fail as a stack, a division or the limit of calls do.

Both are read off what sound runs can end in, by two choices of the errors to keep to
(`confines_blameless`, `confines_standard`).
-/

namespace Threaded

/-! ## Blameless primitives -/

/-- An error that blames no slot of a word, neither for its reference nor for its jump. -/
def Error.SparesSlots : Error → Prop
  | jumpOutOfBounds _ _ | invalidEntry _ => False
  | _ => True

/-- The check blames a slot, if anything. -/
theorem Jump.not_sparesSlots_of_checkFrom {d : Dict} {len : Nat} {e : Error} :
    (rs : List Ref) → (ip : Nat) → checkFrom d len ip rs = .error e → ¬ e.SparesSlots
  | [], _, h => nomatch h
  | r :: rs, ip, h => by
    rw [checkFrom] at h
    split at h
    · next e' hslot =>
      cases h
      unfold checkSlot target at hslot
      split at hslot
      · cases hslot
        exact id
      · split at hslot
        · cases hslot
        · dsimp only at hslot
          split at hslot
          · cases hslot
          · cases hslot
            exact id
    · exact not_sparesSlots_of_checkFrom rs _ h

/-- The check of a word blames a slot. -/
theorem Jump.not_sparesSlots_of_check {d : Dict} {body : Array Ref} {e : Error}
    (h : check d body = .error e) : ¬ e.SparesSlots :=
  not_sparesSlots_of_checkFrom _ _ h

/-- The word of a line is refused for an open branch, or for a slot at fault. -/
theorem Assembly.finish_eq_error {a : Assembly} {e : Error} (h : a.finish = .error e) :
    e = .danglingIf a.code.size ∨ ¬ e.SparesSlots := by
  unfold finish at h
  split at h
  · cases hc : Jump.check a.dict a.code with
    | ok =>
      rw [hc] at h
      cases h
    | error e' =>
      rw [hc] at h
      cases h
      exact .inr (Jump.not_sparesSlots_of_check hc)
  · cases h
    exact .inl rfl

/-- A service that blames no slot of its own accord: it does not fail with such an error, and the
lines it compiles have no branch written by hand that lands outside. -/
def Service.Blameless : Service → Prop
  | .fail e => e.SparesSlots
  | .eval line => line.utf8ByteSize < 2 ^ 63 ∧ firstOutside? (lineSymbols line) = none
  | .exec line => line.utf8ByteSize < 2 ^ 63
  | .self | .push _ | .depth | .clear | .print _ | .pick | .define _ => True

/-- A primitive that blames no slot of its own accord. -/
def Primitive.Blameless : Primitive → Prop
  | .nop | .op _ => True
  | .service s => s.Blameless

/-- A host that offers one word for every kind of service, and more where the kind says too little:
errors that have a code and errors that have none, lines that compile and lines that do not. -/
def hostServices : List (String × Service) :=
  [("host.me", .self), ("host.push1", .push 1), ("host.push2", .push 2), ("host.depth", .depth),
    ("host.clear", .clear), ("host.say", .print "héllo\n"), ("host.pick", .pick),
    ("host.fail", .fail (.unknownWord "host")),
    ("host.fail_coded", .fail (.unresolvedSymbol 4 "inner")), ("host.eval_inc", .eval "1 ADD"),
    ("host.eval_bad", .eval "1 nope"), ("host.exec_bad", .exec "2 3 frob"),
    ("host.defx", .define "X")]

/-- **The services of the host are blameless.** -/
theorem blameless_hostServices : ∀ s ∈ hostServices, s.2.Blameless := by
  have heval : ∀ line : String, line.utf8ByteSize < 2 ^ 63 → 'B' ∉ line.toList →
      (Service.eval line).Blameless := fun _ hline h =>
    ⟨hline, firstOutside?_eq_none_of_notMem h⟩
  have hinc := heval "1 ADD" (by decide) (by decide)
  have hbad := heval "1 nope" (by decide) (by decide)
  have hexec : (Service.exec "2 3 frob").Blameless := by
    show "2 3 frob".utf8ByteSize < 2 ^ 63
    decide
  intro s hs
  simp only [hostServices, List.mem_cons, List.not_mem_nil, or_false] at hs
  rcases hs with rfl | rfl | rfl | rfl | rfl | rfl | rfl | rfl | rfl | rfl | rfl | rfl | rfl <;>
    trivial

namespace Machine

variable {p : Error → Prop} {m : Machine} {e : Error} {line : String}

/-- A line that does not compile blames a slot only for a branch written by hand. -/
theorem sparesSlots_of_compile (h : m.dict.Sound Primitive.Blameless)
    (hline : line.utf8ByteSize < 2 ^ 63) (hinside : firstOutside? (lineSymbols line) = none)
    (he : (m.compile line).1 = .error e) : e.SparesSlots := by
  rcases blame?_of_compile h.nop hline he with ⟨r, _, rfl⟩ | ⟨_, hblame⟩
  · trivial
  · rcases blame?_cases hblame with ⟨t, _, ⟨name, rfl⟩ | rfl⟩ | rfl | ⟨t, _, target, _, hout⟩
    · trivial
    · trivial
    · trivial
    · rw [hinside] at hout
      simp at hout

/-- An action that raises errors of a kind only does so in a primitive. -/
theorem act_raises {x : Bench.Action Unit} (hx : Bench.RaisesOnly p x)
    (he : (m.act x).1 = .error e) : p e :=
  hx m.bench e (perform_of_act he)

/-- Picking an item underflows or overflows at worst. -/
theorem pick_raises (hunder : p .stackUnderflow) (hover : p .stackOverflow) :
    Bench.RaisesOnly p pick := by
  refine (Bench.RaisesOnly.pop hunder).bind ?_
  intro n
  split
  · exact .throw hunder
  · exact (Bench.RaisesOnly.peek hunder _).bind fun _ => .push hover _

/-- **A blameless service blames no slot**, whatever its lines do when they are compiled. -/
theorem serve_sparesSlots (h : m.dict.Sound Primitive.Blameless) (r : Ref) {s : Service}
    (hs : s.Blameless) (he : (m.serve r s).1 = .error e) : e.SparesSlots := by
  have hpush : ∀ n, Bench.RaisesOnly Error.SparesSlots (Bench.push n) := .push trivial
  have hmodify : ∀ f, Bench.RaisesOnly Error.SparesSlots (modify f) := .modify
  have hpick : Bench.RaisesOnly Error.SparesSlots pick := pick_raises trivial trivial
  cases s with
  | self | push | depth => exact act_raises (hpush _) he
  | clear | print => exact act_raises (hmodify _) he
  | pick => exact act_raises hpick he
  | fail e' =>
    cases he
    exact hs
  | eval line =>
    have hcompile : ∀ e, (m.compile line).1 = .error e → e.SparesSlots := fun _ =>
      sparesSlots_of_compile h hs.1 hs.2
    simp only [serve, evalFrames] at he
    cases hc : m.compile line with
    | mk compiled m' =>
      rw [hc] at he hcompile
      rcases compiled with e' | (_ | w)
      · cases he
        exact hcompile e rfl
      · simp at he
      · simp only [framesOf_of_compile hc] at he
        simp at he
  | exec line =>
    have hcode : ∀ e, (m.compile line).1 = .error e → e.code.isSome := fun _ =>
      isSome_code_of_compile h.nop hs
    simp only [serve, execFrames] at he
    cases hc : m.compile line with
    | mk compiled m' =>
      rw [hc] at he hcode
      rcases compiled with e' | (_ | w)
      · obtain ⟨code, hcode⟩ := Option.isSome_iff_exists.1 (hcode e' rfl)
        simp only [Error.folded, hcode] at he
        cases he
      · simp at he
      · simp only [framesOf_of_compile hc] at he
        cases he
  | define name =>
    have hdict : (m.perform Bench.pop).2.dict = m.dict := rfl
    have hpop : ∀ e, (m.perform Bench.pop).1 = .error e → e.SparesSlots :=
      Bench.RaisesOnly.pop trivial m.bench
    simp only [serve] at he
    generalize m.perform Bench.pop = popped at hdict hpop he
    rcases popped with ⟨e' | n, m'⟩
    · cases he
      exact hpop e rfl
    · have hm' : m'.dict.Sound Primitive.Blameless := by
        rw [show m'.dict = m.dict from hdict]
        exact h
      have hcompile : ∀ e, (m'.compile n.render).1 = .error e → e.SparesSlots := by
        intro e
        apply sparesSlots_of_compile hm'
        · have := utf8ByteSize_le_length n.render
          have := Cell.length_render_le n
          omega
        · apply firstOutside?_eq_none_of_notMem
          intro hB
          rcases Cell.eq_or_isDigit_of_mem_render hB with hB | hB <;> revert hB <;> decide
      simp only [define] at he
      split at he
      · generalize m'.compile n.render = compiled at hcompile he
        rcases compiled with ⟨e' | w, m''⟩
        · cases he
          exact hcompile e rfl
        · cases he
      · cases he
        trivial

/-- **Blameless primitives blame no slot.** -/
theorem confines_blameless : Confines Primitive.Blameless Error.SparesSlots where
  standard action h := by
    cases action with
    | nop | op => trivial
    | service => exact h.elim
  underflow := trivial
  overflow := trivial
  depth _ := trivial
  call m r action e h ha he := by
    cases action with
    | nop => cases he
    | op op => exact act_raises (Bench.raisesOnly_act trivial trivial trivial op) he
    | service s => exact serve_sparesSlots h r ha he

/-- The errors that words of the standard set can raise. -/
def standardErrors (e : Error) : Prop :=
  e = .stackUnderflow ∨ e = .stackOverflow ∨ e = .divisionByZero ∨
    ∃ n, e = .recursionLimitExceeded n

/-- **The standard set raises what a stack, a division and the limit of calls raise.** -/
theorem confines_standard : Confines Primitive.Standard standardErrors where
  standard _ h := h
  underflow := .inl rfl
  overflow := .inr (.inl rfl)
  depth n := .inr (.inr (.inr ⟨n, rfl⟩))
  call m r action e _ ha he := by
    cases action with
    | nop => cases he
    | op op =>
      exact act_raises
        (Bench.raisesOnly_act (.inl rfl) (.inr (.inl rfl)) (.inr (.inr (.inl rfl))) op) he
    | service s => exact ha.elim

/-- **No wild jumps.**  Whatever word a machine is asked to run, be it from another machine, a run
fails at once with the first fault of the word and changes nothing; or the word has no fault, and
then the run never is blamed on a slot, whatever it calls and however the dictionary grows
meanwhile.  The services of the host may be bound, being blameless.  The bound on the size of a
word is that of everything in memory. -/
theorem run_safe (h : Reachable (Command.Binds Primitive.Blameless) m) {w : Word}
    (hw : w.body.size < 2 ^ 63 - 1) :
    (∀ e, Jump.firstFault m.dict w.body = some e → ∀ fuel, m.run fuel w = some (.error e, m)) ∧
      (Jump.firstFault m.dict w.body = none →
        ∀ fuel e m', m.run fuel w = some (.error e, m') →
          e.SparesSlots ∧
            (Reachable (Command.Binds Primitive.Standard) m → standardErrors e)) := by
  have hcheck := Jump.check_eq_raised m.dict hw
  constructor
  · intro e he fuel
    rw [he] at hcheck
    unfold run framesOf
    rw [hcheck]
    rfl
  · intro hnone fuel e m' hrun
    rw [hnone] at hcheck
    constructor
    · have hsound := h.sound confines_blameless.standard
      exact (run_sound confines_blameless hsound hrun).2 hcheck e rfl
    · intro hstandard
      have hsound := hstandard.sound confines_standard.standard
      exact (run_sound confines_standard hsound hrun).2 hcheck e rfl

/-- A reference to nothing is refused at once; a word that finds its stack empty is not blamed on
a slot, and neither is one that calls a service whose line does not compile. -/
theorem run_safe_loaded :
    (∀ fuel, (boot {}).load.2.run fuel { body := #[0, 99] } =
      some (.error (.invalidEntry 99), (boot {}).load.2)) ∧
      (∀ fuel e m', (boot {}).load.2.run fuel { body := #[1] } = some (.error e, m') →
        standardErrors e) ∧
      ∀ fuel e m', ((boot {}).defword "host.eval_bad" (.service (.eval "1 nope"))).2.run fuel
        { body := #[1] } = some (.error e, m') → e.SparesSlots := by
  have hstandard : Reachable (Command.Binds Primitive.Standard) (boot {}).load.2 :=
    .load (fun _ h => nomatch h) {}
  have hloaded : Reachable (Command.Binds Primitive.Blameless) (boot {}).load.2 :=
    .load (fun _ h => nomatch h) {}
  have hbinds : (Command.defword "host.eval_bad" (.service (.eval "1 nope"))).Binds
      Primitive.Blameless := by
    intro action haction
    obtain rfl := List.mem_singleton.1 haction
    exact blameless_hostServices ("host.eval_bad", .eval "1 nope") (by decide)
  have hhost : Reachable (Command.Binds Primitive.Blameless)
      ((boot {}).defword "host.eval_bad" (.service (.eval "1 nope"))).2 :=
    .obey 0 (.boot {}) hbinds rfl
  refine ⟨?_, ?_, ?_⟩
  · exact (run_safe hloaded (by decide)).1 _ rfl
  · intro fuel e m' hrun
    exact ((run_safe hloaded (by decide)).2 rfl fuel e m' hrun).2 hstandard
  · intro fuel e m' hrun
    exact ((run_safe hhost (by decide)).2 rfl fuel e m' hrun).1

end Machine

end Threaded
