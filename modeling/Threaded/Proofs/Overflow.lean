import Threaded.Proofs.Bounded
import Threaded.Proofs.Safety

/-!
# Overflow is exact

A stack overflows when it is full, and the standard set overflows it in three places alone.

An operation that takes an operand before it pushes makes the room that it needs, and this is
counted along the actions it is made of (`Bench.Fits`).  What is left are the entries that push
without taking, a literal, DUP and OVER (`Entry.reads?`).  In its turn such an entry overflows if
the stack has no room and what it reads is there, and then nothing is changed
(`Entry.turn_overflow_iff`).
From there it is a matter of the steps of a thread (`Thread.Moves.overflow_iff`), and of which
commands run one (`Machine.overflow_cases`).

The stack of open branches of the assembler is of the same kind, with its size taken from the line,
and it never overflows (`Machine.compile_ne_overflow`).
-/

namespace Threaded

namespace Bench

/-! ## Counting the room -/

section Fits

variable {α β : Type} {i j k : Nat}

/-- With room for `j` items the action does not overflow, and if it succeeds it leaves room for
`k`. -/
def Fits (j k : Nat) (x : Action α) : Prop :=
  ∀ b : Bench, j ≤ b.stack.room →
    (b.perform x).1 ≠ .error .stackOverflow ∧
      ∀ a, (b.perform x).1 = .ok a → k ≤ (b.perform x).2.stack.room

namespace Fits

variable {x : Action α} {f : α → Action β}

/-- Less room than is left is left too. -/
theorem weaken (h : Fits i j x) (hkj : k ≤ j) : Fits i k x :=
  fun b hb => ⟨(h b hb).1, fun a ha => Nat.le_trans hkj ((h b hb).2 a ha)⟩

/-- A value takes no room. -/
theorem pure (a : α) : Fits k k (pure a : Action α) :=
  fun _ hb => ⟨nofun, fun _ _ => hb⟩

/-- A failure of another kind takes no room. -/
theorem throw {e : Error} (he : e ≠ .stackOverflow) : Fits j k (throw e : Action α) := by
  intro b _
  refine ⟨fun h => he (Except.error.inj h), fun a h => ?_⟩
  rw [perform_throw] at h
  cases h

/-- The room is counted along the parts of an action. -/
theorem bind (hx : Fits i j x) (hf : ∀ a, Fits j k (f a)) : Fits i k (x >>= f) := by
  intro b hb
  obtain ⟨hover, hroom⟩ := hx b hb
  rw [perform_bind]
  generalize b.perform x = o at hover hroom ⊢
  obtain ⟨e | a, b₁⟩ := o
  · exact ⟨fun h => hover (congrArg Except.error (Except.error.inj h)), fun _ h => nomatch h⟩
  · exact hf a b₁ (hroom a rfl)

/-- Reading the bench takes no room. -/
theorem get : Fits k k (get : Action Bench) :=
  fun _ hb => ⟨nofun, fun _ _ => hb⟩

/-- Printing takes no room. -/
theorem print (text : String) : Fits k k (print text) :=
  fun _ hb => ⟨nofun, fun _ _ => hb⟩

/-- A pop makes room. -/
theorem pop : Fits k (k + 1) pop := by
  intro b hb
  rw [perform_pop]
  split
  · next v stack hpop =>
    have hroom := (Stack.pop_eq_ok_iff.1 hpop).2
    exact ⟨nofun, fun _ _ => by dsimp only; omega⟩
  · next e hpop =>
    obtain ⟨_, rfl⟩ := Stack.pop_eq_error_iff.1 hpop
    exact ⟨nofun, fun _ h => nomatch h⟩

/-- A push takes it. -/
theorem push (v : Cell) : Fits (k + 1) k (push v) := by
  intro b hb
  rw [perform_push]
  split
  · next stack hpush =>
    have hroom := (Stack.push_eq_ok_iff.1 hpush).2
    exact ⟨nofun, fun _ _ => by dsimp only; omega⟩
  · next e hpush =>
    have hfull := (Stack.push_eq_error_iff.1 hpush).1
    omega

/-- **An operation that takes before it pushes** has the room it needs. -/
theorem act {op : Op} (hdup : op ≠ .dup) (hover : op ≠ .over) : Fits 0 0 (act op) := by
  have hunary : ∀ f, Fits 0 0 (unary f) := fun f => pop.bind fun _ => push _
  have hbinary : ∀ f, Fits 0 0 (binary f) := fun f =>
    (pop.bind fun _ => pop.bind fun _ => push (k := 1) _).weaken (Nat.zero_le _)
  have hdividing : ∀ f, Fits 0 0 (dividing f) := by
    intro f
    refine (pop.bind fun b => pop.bind (k := 1) fun a => ?_).weaken (Nat.zero_le _)
    split
    · exact throw nofun
    · exact push _
  cases op with
  | add | sub | mul | eq | lt | gt => exact hbinary _
  | div | mod => exact hdividing _
  | neg | not => exact hunary _
  | dup => exact absurd rfl hdup
  | «over» => exact absurd rfl hover
  | drop => exact (pop.bind fun _ => pure _).weaken (Nat.zero_le _)
  | swap => exact pop.bind fun b => pop.bind fun a => (push b).bind fun _ => push a
  | printTop => exact (pop.bind fun _ => print _).weaken (Nat.zero_le _)
  | printStack => exact get.bind fun _ => print _

end Fits

end Fits

/-! ## Pushing without taking -/

/-- A push overflows on a full stack, and then leaves everything as it is. -/
theorem perform_push_overflow_iff (b b' : Bench) (v : Cell) :
    b.perform (push v) = (.error .stackOverflow, b') ↔ b.stack.room = 0 ∧ b' = b := by
  rw [perform_push]
  constructor
  · intro h
    split at h
    · simp at h
    · next e hpush =>
      cases h
      exact ⟨(Stack.push_eq_error_iff.1 hpush).1, rfl⟩
  · rintro ⟨hfull, rfl⟩
    rw [Stack.push_eq_error_iff.2 ⟨hfull, rfl⟩]

/-- So does a push of an item that is looked up first, if it is there. -/
theorem perform_peek_push_overflow_iff (b b' : Bench) (i : Nat) :
    b.perform (peek i >>= push) = (.error .stackOverflow, b') ↔
      (b.stack.room = 0 ∧ b' = b) ∧ i + 1 ≤ b.stack.depth := by
  rw [perform_bind, perform_peek]
  by_cases hi : i < b.stack.items.length
  · have hitem : b.stack.get? i = some b.stack.items[i] := List.getElem?_eq_getElem hi
    simp only [hitem, perform_push_overflow_iff]
    exact ⟨fun h => ⟨h, hi⟩, fun h => h.1⟩
  · have hnone : b.stack.get? i = none := List.getElem?_eq_none (Nat.le_of_not_lt hi)
    simp only [hnone]
    exact ⟨fun h => by simp at h, fun h => absurd h.2 hi⟩

end Bench

/-- How many items must be there for an entry that pushes without taking any; no other entry has
such a number. -/
def Entry.reads? : Entry → Option Nat
  | .literal _ => some 0
  | .primitive _ (.op .dup) => some 1
  | .primitive _ (.op .over) => some 2
  | _ => none

namespace Entry

open Bench

variable {ip len : Nat} {e : Entry} {x : Bench.Action Nat}

/-- A turn that takes before it pushes, or does not push, has the room it needs. -/
theorem fits_turn (hx : e.turn? ip len = some x) (he : e.reads? = none) : Fits 0 0 x := by
  have hfollow : ∀ offset, Fits 0 0 (follow ip len offset) := by
    intro offset b hb
    rw [perform_follow]
    refine ⟨fun h => ?_, fun _ _ => hb⟩
    unfold Jump.target at h
    dsimp only at h
    split at h <;> cases h
  rcases e with ⟨name, _ | op | s⟩ | w | value | offset | offset
  · obtain rfl := Option.some.inj hx
    exact .pure _
  · obtain rfl := Option.some.inj hx
    have hact : Fits 0 0 (act op) := by
      apply Fits.act
      · rintro rfl
        cases he
      · rintro rfl
        cases he
    exact hact.bind fun _ => .pure _
  · cases hx
  · cases hx
  · cases he
  · obtain rfl := Option.some.inj hx
    exact hfollow offset
  · obtain rfl := Option.some.inj hx
    refine (Fits.pop.weaken (Nat.zero_le 1)).bind fun n => ?_
    split
    · exact hfollow offset
    · exact .pure _

/-- An action overflows as it does with what comes behind it and cannot fail. -/
theorem perform_then_overflow_iff (b b' : Bench) (y : Bench.Action Unit) (n : Nat) :
    b.perform (do y; return n) = (.error .stackOverflow, b') ↔
      b.perform y = (.error .stackOverflow, b') := by
  rw [perform_bind]
  rcases b.perform y with ⟨e | _, b₁⟩
  · simp
  · simp [perform_pure]

/-- **Who overflows a stack, and when.**  In its turn an entry overflows if it pushes without
taking, the stack is full, and what it reads is there; and then nothing is changed. -/
theorem turn_overflow_iff (hx : e.turn? ip len = some x) (b b' : Bench) :
    b.perform x = (.error .stackOverflow, b') ↔
      b.stack.room = 0 ∧ b' = b ∧ ∃ n, e.reads? = some n ∧ n ≤ b.stack.depth := by
  cases he : e.reads? with
  | none =>
    have hfits := (fits_turn hx he b (Nat.zero_le _)).1
    constructor
    · intro h
      exact absurd (congrArg Prod.fst h) hfits
    · rintro ⟨_, _, n, hn, _⟩
      cases hn
  | some n =>
    have hreads : (∃ k, some n = some k ∧ k ≤ b.stack.depth) ↔ n ≤ b.stack.depth := by simp
    rw [hreads]
    cases e with
    | literal value =>
      obtain rfl := Option.some.inj hx
      obtain rfl : 0 = n := Option.some.inj he
      rw [perform_then_overflow_iff, perform_push_overflow_iff]
      simp
    | primitive name action =>
      cases action with
      | op op =>
        obtain rfl := Option.some.inj hx
        rw [perform_then_overflow_iff]
        cases op with
        | dup =>
          obtain rfl : 1 = n := Option.some.inj he
          rw [act, perform_peek_push_overflow_iff, and_assoc]
        | «over» =>
          obtain rfl : 2 = n := Option.some.inj he
          rw [act, perform_peek_push_overflow_iff, and_assoc]
        | _ => cases he
      | nop | service => cases he
    | compound | branch | zbranch => cases he

end Entry

/-! ## Lines -/

/-- What the search for a fault finds is the fault of some symbol. -/
theorem Symbol.exists_fault?_of_faultFrom {d : Dict} {e : Error} : (symbols before : List Symbol) →
    faultFrom d before symbols = some e → ∃ (s : Symbol) (before : List Symbol),
      s.fault? d before = some e
  | [], _, h => nomatch h
  | s :: rest, before, h => by
    rw [faultFrom, Option.or_eq_some_iff] at h
    rcases h with h | ⟨_, h⟩
    · exact ⟨s, before, h⟩
    · exact exists_fault?_of_faultFrom rest _ h

/-- The errors that a line can be refused with. -/
def Error.OfLine : Error → Prop
  | tokenTooLong _ | unresolvedSymbol _ _ | unmatchedElseOrEnd _ | danglingIf _
  | jumpOutOfBounds _ _ | invalidEntry _ => True
  | _ => False

/-- **A line is refused** for a token, for its end, or for a slot. -/
theorem Machine.ofLine_of_compile {m m' : Machine} {line : String} {e : Error}
    (h : m.compile line = (.error e, m')) : e.OfLine := by
  have hassemble : ∀ e, (assemble m.dict (lineSymbols line)).1 = .error e → e.OfLine := by
    intro e he
    have himage := assemble_image m.dict (lineSymbols line)
    split at himage
    · next e' hf =>
      obtain ⟨d', hd', _⟩ := himage
      rw [hd'] at he
      cases he
      obtain ⟨s, before, hs⟩ := Symbol.exists_fault?_of_faultFrom _ _ hf
      rcases Symbol.eq_of_fault?_eq_some hs with ⟨_, rfl⟩ | rfl <;> trivial
    · obtain ⟨a, os, ha, _⟩ := himage
      rw [ha] at he
      rcases Assembly.finish_eq_error he with rfl | hslot
      · trivial
      · cases e <;> first | trivial | exact absurd trivial hslot
  rw [compile_eq] at h
  split at h
  · cases h
    trivial
  · split at h
    · cases h
    · generalize (assemble m.dict (lineSymbols line)).1 = assembled at h hassemble
      cases assembled with
      | error e' =>
        cases h
        exact hassemble e rfl
      | ok w => cases h

/-- **A line never overflows the stack of its open branches**, however deep they are nested. -/
theorem Machine.compile_ne_overflow (m : Machine) (line : String) :
    (m.compile line).1 ≠ .error .stackOverflow :=
  fun h => ofLine_of_compile (Prod.ext h rfl)

/-! ## Runs -/

namespace Thread

/-- An entry is about to push without taking, what it reads is there, and the stack is full. -/
structure Overflows (t : Thread) : Prop where
  full : t.machine.bench.stack.depth = t.machine.limits.stackSize
  pushing : ∃ e n, t.acting? = some e ∧ e.reads? = some n ∧ n ≤ t.machine.bench.stack.depth

variable {t : Thread} {s : Step} {m' : Machine}

/-- **A step overflows** if an entry pushes without taking on a stack without room, and in no other
case; and then nothing is changed. -/
theorem Moves.overflow_iff (h : t.Moves s) :
    s = .done (.error .stackOverflow) m' ↔
      t.machine.bench.stack.room = 0 ∧ m' = t.machine ∧
        ∃ e n, t.acting? = some e ∧ e.reads? = some n ∧ n ≤ t.machine.bench.stack.depth := by
  have hnever : (∀ e, t.acting? = some e → e.reads? = none) →
      s ≠ .done (.error .stackOverflow) m' →
      (s = .done (.error .stackOverflow) m' ↔ t.machine.bench.stack.room = 0 ∧ m' = t.machine ∧
        ∃ e n, t.acting? = some e ∧ e.reads? = some n ∧ n ≤ t.machine.bench.stack.depth) := by
    intro hreads hs
    refine ⟨fun h => absurd h hs, ?_⟩
    rintro ⟨_, _, e, n, he, hn, _⟩
    rw [hreads e he] at hn
    cases hn
  cases h with
  | finish m => exact hnever nofun nofun
  | back m depth rest hip =>
    refine hnever (fun e he => ?_) nofun
    simp [acting?, hip] at he
  | lost depth rest hr he' =>
    refine hnever (fun e he => ?_) nofun
    simp [acting?, hr, he'] at he
  | call rest hr he' =>
    refine hnever (fun e he => ?_) nofun
    obtain rfl : Entry.compound _ = e := by simpa [acting?, hr, he'] using he
    rfl
  | deep rest hr he' =>
    refine hnever (fun e he => ?_) nofun
    obtain rfl : Entry.compound _ = e := by simpa [acting?, hr, he'] using he
    rfl
  | @turn m body ip r e x depth rest hr he hx =>
    have hacting : acting? ⟨m, .code body ip depth :: rest⟩ = some e := by
      simp [acting?, hr, he]
    rw [turned_eq_error_iff, Machine.perform_eq_iff]
    constructor
    · rintro ⟨b, hb, rfl⟩
      obtain ⟨hfull, rfl, n, hn, hle⟩ := (Entry.turn_overflow_iff hx m.bench b).1 hb
      exact ⟨hfull, rfl, e, n, hacting, hn, hle⟩
    · rintro ⟨hfull, hm, e', n, he', hn, hle⟩
      obtain rfl : e = e' := Option.some.inj (hacting.symm.trans he')
      exact ⟨m.bench, (Entry.turn_overflow_iff hx _ _).2 ⟨hfull, rfl, n, hn, hle⟩, hm⟩

/-- On a bounded machine there is no room when the stack is as deep as the limit says. -/
theorem Moves.overflow_iff_overflows (h : t.Moves s) (hbounded : t.machine.Bounded) :
    s = .done (.error .stackOverflow) m' ↔ t.Overflows ∧ m' = t.machine := by
  rw [h.overflow_iff, hbounded.room_eq_zero_iff]
  constructor
  · rintro ⟨hfull, hm, hpushing⟩
    exact ⟨⟨hfull, hpushing⟩, hm⟩
  · rintro ⟨⟨hfull, hpushing⟩, hm⟩
    exact ⟨hfull, hm, hpushing⟩

/-- A thread whose machine is bounded ends in an overflow at a point where an entry overflows. -/
theorem Plain.overflows_of_endsIn (h : t.Plain) (hbounded : t.machine.Bounded)
    (hends : t.EndsIn (.error .stackOverflow, m')) :
    ∃ t', t.Leads t' ∧ t'.Overflows ∧ m' = t'.machine := by
  obtain ⟨t', hleads, hstep⟩ := hends.exists_leads
  have hmoves := (h.leads hleads).1.moves
  exact ⟨t', hleads, (hmoves.overflow_iff_overflows (hleads.bounded hbounded)).1 hstep⟩

end Thread

namespace Machine

variable {m m' : Machine} {fuel : Nat} {c : Command}

/-- Binding names does not overflow the stack. -/
theorem defwords_ne_overflow : (words : List (String × Op)) → (m : Machine) →
    (m.defwords words).1 ≠ .error .stackOverflow
  | [], _ => nofun
  | (name, op) :: rest, m => by
    unfold defwords defword
    split
    · next r m₁ _ => exact defwords_ne_overflow rest m₁
    · next e m₁ hfirst =>
      split at hfirst
      · cases hfirst
      · cases hfirst
        nofun

/-- A definition does not overflow the stack. -/
theorem define_ne_overflow (m : Machine) (name source : String) :
    (m.define name source).1 ≠ .error .stackOverflow := by
  have hcompile := m.compile_ne_overflow source
  unfold define
  split
  · generalize m.compile source = o at hcompile ⊢
    obtain ⟨e | w, m₁⟩ := o
    · exact fun h => hcompile (congrArg Except.error (Except.error.inj h))
    · nofun
  · nofun

/-- A buffer that is no line is refused with an error that has a code. -/
theorem isSome_code_of_ofBytes {nameLen : Nat} {bytes : List UInt8} {e : Error}
    (h : Line.ofBytes nameLen bytes = .error e) : e.code.isSome := by
  unfold Line.ofBytes Line.tooLong? at h
  dsimp only at h
  split at h
  · next e' htoo =>
    cases h
    obtain ⟨r, _, rfl⟩ := Option.map_eq_some_iff.1 htoo
    rfl
  · split at h
    · cases h
    · cases h
      rfl

/-- Executing a line overflows where running it does. -/
theorem exec_overflow_cases {line : String}
    (h : m.exec fuel line = some (.error .stackOverflow, m')) :
    ∃ t, m.lineThread? line = some t ∧ t.EndsIn (.error .stackOverflow, m') := by
  rcases exec_cases h with ⟨t, r, ht, hfinish, hr⟩ | ⟨_, hcompile⟩
  · rcases r with e | _
    · obtain rfl : .stackOverflow = e := Except.error.inj hr
      exact ⟨t, ht, fuel, hfinish⟩
    · cases hr
  · exact absurd (hcompile _ rfl) (m.compile_ne_overflow line)

/-- **A command that overflows** is a push on a full stack, or it runs something that does. -/
theorem overflow_cases (h : m.obey fuel c = some (.error .stackOverflow, m')) :
    (∃ value, c = .push value ∧ m.bench.stack.room = 0 ∧ m' = m) ∨
      ∃ t, m.thread? c = some t ∧ t.EndsIn (.error .stackOverflow, m') := by
  have hof : ∀ {α : Type} {f : α → Reply} {o : Except Error α × Machine},
      Outcome.of f o = (.error .stackOverflow, m') → o = (.error .stackOverflow, m') := by
    rintro α f ⟨e | a, m₁⟩ ho
    · cases ho
      rfl
    · cases ho
  cases c with
  | load =>
    have hload := hof (Option.some.inj h)
    exact absurd (congrArg Prod.fst hload) (defwords_ne_overflow standardWords m)
  | define name source =>
    have hdefine := hof (Option.some.inj h)
    exact absurd (congrArg Prod.fst hdefine) (m.define_ne_overflow name source)
  | defword name action =>
    have hdefword := hof (Option.some.inj h)
    unfold defword at hdefword
    split at hdefword <;> cases hdefword
  | compile line =>
    have hcompile := hof (Option.some.inj h)
    exact absurd (congrArg Prod.fst hcompile) (m.compile_ne_overflow line)
  | run w =>
    obtain ⟨o, hrun, ho⟩ := Option.map_eq_some_iff.1 h
    obtain rfl := hof ho
    rcases run_cases hrun with ⟨t, ht, hfinish⟩ | ⟨e, hcheck, heq⟩
    · exact .inr ⟨t, ht, fuel, hfinish⟩
    · cases heq
      exact absurd trivial (Jump.not_sparesSlots_of_check hcheck)
  | eval line =>
    obtain ⟨o, heval, ho⟩ := Option.map_eq_some_iff.1 h
    obtain rfl := hof ho
    rcases eval_cases heval with ⟨t, ht, hfinish⟩ | ⟨_, hcompile⟩
    · exact .inr ⟨t, ht, fuel, hfinish⟩
    · exact absurd (hcompile _ rfl) (m.compile_ne_overflow line)
  | exec line =>
    obtain ⟨o, hexec, ho⟩ := Option.map_eq_some_iff.1 h
    obtain rfl := hof ho
    exact .inr (exec_overflow_cases hexec)
  | execBytes bytes =>
    obtain ⟨o, hexec, ho⟩ := Option.map_eq_some_iff.1 h
    obtain rfl := hof ho
    unfold execBytes at hexec
    split at hexec
    · next line hline =>
      simp only [thread?, hline]
      exact .inr (exec_overflow_cases hexec)
    · next e he =>
      obtain ⟨code, hcode⟩ := Option.isSome_iff_exists.1 (isSome_code_of_ofBytes he)
      simp only [Error.folded, hcode] at hexec
      cases hexec
  | push value =>
    have hpush := hof (Option.some.inj h)
    obtain ⟨b, hb, hm⟩ := perform_eq_iff.1 hpush
    obtain ⟨hroom, rfl⟩ := (Bench.perform_push_overflow_iff _ _ _).1 hb
    exact .inl ⟨value, rfl, hroom, hm⟩
  | pop =>
    have hpop := congrArg Prod.fst (hof (Option.some.inj h))
    have hraises : Bench.RaisesOnly (· ≠ .stackOverflow) Bench.pop := .pop (by decide)
    exact absurd rfl (hraises m.bench _ hpop)
  | clear | print | clearConsole => cases h

/-- How exactly the stack of a machine overflows whose host binds the standard set at most. -/
structure OverflowExact (m : Machine) : Prop where
  /-- At a point of a run the next step overflows where an entry pushes without taking on a full
  stack, and it changes nothing. -/
  step : ∀ c t t' m', m.thread? c = some t → t.Leads t' →
    (t'.step = .done (.error .stackOverflow) m' ↔ t'.Overflows ∧ m' = t'.machine)
  /-- A command that fails with an overflow is a push on a full stack, or it has come to such a
  point. -/
  command : ∀ fuel c m', m.obey fuel c = some (.error .stackOverflow, m') →
    (∃ value, c = .push value ∧ m.bench.stack.depth = m.limits.stackSize ∧ m' = m) ∨
      ∃ t t', m.thread? c = some t ∧ t.Leads t' ∧ t'.Overflows ∧ m' = t'.machine

/-- **The stack overflows exactly where a push finds it full**, on every machine of the standard
set. -/
theorem overflowExact (h : Reachable (Command.Binds Primitive.Standard) m) : OverflowExact m where
  step c t t' m' ht hleads := by
    have hbounded := hleads.bounded (h.bounded.thread? ht)
    have hplain := ((plain_of_thread? h ht).leads hleads).1
    exact hplain.moves.overflow_iff_overflows hbounded
  command fuel c m' hobey := by
    rcases overflow_cases hobey with ⟨value, rfl, hroom, hm⟩ | ⟨t, ht, hends⟩
    · exact .inl ⟨value, rfl, h.bounded.room_eq_zero_iff.1 hroom, hm⟩
    · have hplain := plain_of_thread? h ht
      obtain ⟨t', hleads, hover, hm⟩ := hplain.overflows_of_endsIn (h.bounded.thread? ht) hends
      exact .inr ⟨t, t', ht, hleads, hover, hm⟩

/-- **The stack is bounded, and overflow is exact.**  On every reachable machine, and at every point
of every run of a command, whatever the host has bound, the stack holds no more than the limit says.
No line overflows anything when it is compiled.  An entry that is no service and does not push
without taking never overflows, in any thread and on any stack.  And where the host binds the
standard set at most, a run overflows where a literal, DUP or OVER meets a full stack and nowhere
else, and it leaves the machine as it was before that step. -/
theorem overflow_exact {allowed : Command → Prop} (h : Reachable allowed m) :
    m.bench.stack.depth ≤ m.limits.stackSize ∧
      (∀ c t t', m.thread? c = some t → t.Leads t' →
        t'.machine.bench.stack.depth ≤ m.limits.stackSize) ∧
      (∀ line, (m.compile line).1 ≠ .error .stackOverflow) ∧
      (∀ (t : Thread) e, t.acting? = some e → (∀ name s, e ≠ .primitive name (.service s)) →
        e.reads? = none → ∀ m', t.step ≠ .done (.error .stackOverflow) m') ∧
      (Reachable (Command.Binds Primitive.Standard) m → OverflowExact m) := by
  refine ⟨h.bounded.depth_le, ?_, m.compile_ne_overflow, ?_, overflowExact⟩
  · intro c t t' ht hleads
    have hdev : Develops (fun _ => True) m t'.machine :=
      (develops_of_thread? ht).trans hleads.develops
    rw [← hdev.grows.limits]
    exact (hleads.bounded (h.bounded.thread? ht)).depth_le
  · intro t e he hservice hreads m' hstep
    obtain ⟨_, _, e', n, he', hn, _⟩ :=
      (Thread.moves_of_acting? he hservice).overflow_iff.1 hstep
    obtain rfl : e = e' := Option.some.inj (he.symm.trans he')
    rw [hreads] at hn
    cases hn

/-- A DUP on a stack with one place, which is taken. -/
theorem overflow_exact_dup :
    ∃ m, Reachable (Command.Binds Primitive.Standard) m ∧
      m.bench.stack.depth = 1 ∧ 1 ≤ m.limits.stackSize ∧
      ∃ m', m.obey 3 (.eval "DUP") = some (.error .stackOverflow, m') ∧
        ∃ t t', m.thread? (.eval "DUP") = some t ∧ t.Leads t' ∧ t'.Overflows ∧
          m' = t'.machine := by
  have hreach : Reachable (Command.Binds Primitive.Standard)
      ((boot { stackSize := 1 }).load.2.perform (Bench.push 7)).2 :=
    .obey 0 (.load (.of_primitives_eq_nil rfl) _) (c := .push 7) (.of_primitives_eq_nil rfl) rfl
  obtain ⟨hdepth, _, _, _, hexact⟩ := overflow_exact hreach
  have hobey : ((boot { stackSize := 1 }).load.2.perform (Bench.push 7)).2.obey 3 (.eval "DUP") =
      some (.error .stackOverflow, _) := rfl
  refine ⟨_, hreach, rfl, hdepth, _, hobey, ?_⟩
  rcases (hexact hreach).command 3 (.eval "DUP") _ hobey with ⟨_, hpush, _⟩ | hpoint
  · cases hpush
  · exact hpoint

end Machine

end Threaded
