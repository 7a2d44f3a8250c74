import Threaded.Proofs.Throughout

/-!
# What lies beneath

An operation takes what it needs off the top of the stack, or looks down to a fixed place, and it
fails if there is too little.  So a word that does not fail on a stack for want of items never gets
to what may lie beneath that stack (`frame_rule`): with other items there, and as much room above,
it comes to the same end, prints the same, and leaves the same stack on top of them.

One operation is not so: the one that prints the whole stack shows how deep it is.  A word that does
not reach it is **quiet**.

The two runs are coupled, and excused is the underflow of the one on the lower stack.
-/

namespace Threaded

/-! ## Stacks on top of other items -/

namespace Stack

variable {α : Type}

/-- The stack on top of other items, which are given bottom first, with as much room as before. -/
def atop (s : Stack α) (below : List α) : Stack α :=
  ⟨s.items ++ below.reverse, s.room⟩

/-- The items beneath are the first ones. -/
@[simp] theorem toList_atop (s : Stack α) (below : List α) :
    (s.atop below).toList = below ++ s.toList := by
  simp [atop, toList]

/-- The items beneath have places of their own. -/
@[simp] theorem capacity_atop (s : Stack α) (below : List α) :
    (s.atop below).capacity = s.capacity + below.length := by
  simp only [atop, capacity, List.length_append, List.length_reverse]
  omega

/-- The items and the capacity say what stands on top of what. -/
theorem eq_atop_iff {s s' : Stack α} {below : List α} :
    s' = s.atop below ↔
      s'.toList = below ++ s.toList ∧ s'.capacity = s.capacity + below.length := by
  constructor
  · rintro rfl
    exact ⟨s.toList_atop below, s.capacity_atop below⟩
  · rintro ⟨hitems, hcapacity⟩
    obtain ⟨items, room⟩ := s
    obtain ⟨items', room'⟩ := s'
    obtain rfl : items' = items ++ below.reverse := by
      simpa [toList] using congrArg List.reverse hitems
    simp only [capacity, List.length_append, List.length_reverse] at hcapacity
    simp only [atop, mk.injEq, true_and]
    omega

end Stack

/-! ## Benches -/

namespace Bench

/-- The bench with its stack on top of other items. -/
def atop (b : Bench) (below : List Cell) : Bench :=
  { b with stack := b.stack.atop below }

/-- An action that does the same with other items beneath the stack, unless it gets to the bottom of
the stack without them. -/
abbrev Shallow {α : Type} (below : List Cell) (x : Action α) : Prop :=
  InStep (fun b b' => b' = b.atop below) (· = .stackUnderflow) x

namespace Shallow

variable {below : List Cell}

/-- A push does not look beneath. -/
theorem push (n : Cell) : Shallow below (push n) := by
  rintro ⟨⟨items, room⟩, c⟩ _ rfl
  cases room with
  | zero => exact .inr ⟨rfl, rfl⟩
  | succ room => exact .inr ⟨rfl, rfl⟩

/-- A pop that does not underflow does not look beneath. -/
theorem pop : Shallow below pop := by
  rintro ⟨⟨items, room⟩, c⟩ _ rfl
  cases items with
  | nil => exact .inl ⟨.stackUnderflow, rfl, rfl⟩
  | cons n items => exact .inr ⟨rfl, rfl⟩

/-- A place that is there is counted from the top, and so it is the same. -/
theorem peek (i : Nat) : Shallow below (peek i) := by
  rintro b _ rfl
  rw [perform_peek, perform_peek]
  cases hi : b.stack.get? i with
  | none => exact .inl ⟨.stackUnderflow, rfl, rfl⟩
  | some n =>
    have hsame : (b.atop below).stack.get? i = some n := by
      obtain ⟨hlt, _⟩ := List.getElem?_eq_some_iff.1 hi
      exact (List.getElem?_append_left hlt).trans hi
    rw [hsame]
    exact .inr ⟨rfl, rfl⟩

/-- Printing does not look at the stack. -/
theorem print (text : String) : Shallow below (print text) := by
  rintro b _ rfl
  exact .inr ⟨rfl, rfl⟩

/-- **All operations but one** do the same with other items beneath the stack. -/
theorem act {op : Op} (hop : op ≠ .printStack) : Shallow below (act op) :=
  inStep_act push pop peek print fun h => absurd h hop

end Shallow

end Bench

/-! ## Quiet words -/

/-- An entry that does not print the whole stack. -/
def Entry.Quiet (e : Entry) : Prop :=
  ∀ name, e ≠ .primitive name (.op .printStack)

/-- A word that does not reach the operation that prints the whole stack. -/
def Dict.Quiet (d : Dict) (body : Array Ref) : Prop :=
  d.Throughout Entry.Quiet body

/-- The run of a quiet word on a stack, coupled to its run with other items beneath the stack. -/
def beneath (d : Dict) (limits : Limits) (below : List Cell) : Coupling where
  limits := limits
  limits' := limits
  dict := d
  dict' := d
  refs := d.Old
  benches b b' := b' = b.atop below
  levels body depth depth' := depth = depth' ∧ d.Quiet body
  excused := (· = .stackUnderflow)

/-- Stacks with other items beneath are a lawful coupling, in which underflow is excused. -/
theorem lawful_beneath {d : Dict} (h : d.Sound Primitive.Standard) (limits : Limits)
    (below : List Cell) : (beneath d limits below).Lawful where
  entries := h.matches_old (.refl d)
  push := Bench.Shallow.push
  pop := Bench.Shallow.pop
  op := by
    rintro body depth _ ⟨rfl, hquiet⟩ r hr name op hget
    refine Bench.Shallow.act ?_
    rintro rfl
    exact hquiet.slot hr hget name rfl
  call := by
    rintro body depth _ ⟨rfl, hquiet⟩ r hr w hget
    split
    · next hdeep => exact .inr ⟨hdeep, rfl⟩
    · next hdeep => exact ⟨Nat.le_of_not_lt hdeep, rfl, hquiet.compound hr hget⟩

/-! ## The theorem -/

namespace Machine

variable {m m' : Machine} {w : Word} {line : String} {result : Except Error Unit}

/-- The machine with its stack on top of other items. -/
def atop (m : Machine) (below : List Cell) : Machine :=
  { m with bench := m.bench.atop below }

/-- **A quiet word does the same on top of other items.** -/
theorem runsTo_atop (h : m.dict.Sound Primitive.Standard) (hw : m.Accepts w)
    (hquiet : m.dict.Quiet w.body) (below : List Cell) (hrun : m.RunsTo w (result, m'))
    (hresult : result ≠ .error .stackUnderflow) :
    (m.atop below).RunsTo w (result, m'.atop below) := by
  have hends := (runsTo_iff hw _).1 hrun
  have hcoupled : Thread.Coupled (beneath m.dict m.limits below)
      ⟨m, [.code w.body 0 0]⟩ ⟨m.atop below, [.code w.body 0 0]⟩ :=
    ⟨⟨rfl, rfl, rfl, rfl, rfl⟩,
      .cons (.code 0 (Dict.forall₂_old_of_check hw) ⟨rfl, hquiet⟩) .nil⟩
  rcases hcoupled.endsIn (lawful_beneath h m.limits below) with
    ⟨e, m₁, hunder, he⟩ | ⟨hforth, _⟩
  · obtain rfl : e = .stackUnderflow := he
    exact absurd (congrArg Prod.fst (hends.unique hunder)) hresult
  · obtain ⟨⟨result', m₂⟩, hends', hsame, hmachine⟩ := hforth _ hends
    obtain rfl : result = result' := hsame
    -- both machines are those of the two runs, so they differ in the bench alone
    have hatop : m₂ = m'.atop below := by
      obtain ⟨limits, dict, bench⟩ := m'
      obtain ⟨limits₂, dict₂, bench₂⟩ := m₂
      obtain ⟨hlimits, hlimits₂, hdict, hdict₂, hbench⟩ := hmachine
      obtain rfl : limits₂ = limits := hlimits₂.trans hlimits.symm
      obtain rfl : dict₂ = dict := hdict₂.trans hdict.symm
      obtain rfl : bench₂ = bench.atop below := hbench
      rfl
    exact (runsTo_iff (m := m.atop below) hw _).2 (hatop ▸ hends')

/-- No name in a line means something that reaches the operation that prints the whole stack. -/
def LineQuiet (m : Machine) (line : String) : Prop :=
  ∀ text q, .word text ∈ lineSymbols line → m.dict.lookup text = some q → m.dict.Quiet #[q]

/-- The word of a quiet line is quiet. -/
theorem LineQuiet.compile {allowed : Command → Prop} (hquiet : m.LineQuiet line)
    (h : Reachable allowed m) (hline : line.utf8ByteSize < 2 ^ 63)
    (hc : m.compile line = (.ok (some w), m')) : m'.dict.Quiet w.body := by
  refine throughout_of_compile h hline (fun _ => nofun) hquiet ?_ hc
  intro t s e _ henters
  cases henters <;> exact fun _ => nofun

/-- **The frame rule.**  On a reachable machine whose host binds the standard set at most, let a
quiet word come to an end on some stack, with any outcome but an underflow.  On a stack that has
other items beneath these, and as much more capacity, it comes to the same end with the same text
printed, and leaves the same stack on top of the other items.  So does a quiet line. -/
theorem frame_rule (h : Reachable (Command.Binds Primitive.Standard) m) (below : List Cell)
    (s s' : Stack Cell) (c : String) (hitems : s'.toList = below ++ s.toList)
    (hcapacity : s'.capacity = s.capacity + below.length) :
    (∀ w result m', m.Accepts w → m.dict.Quiet w.body →
      (m.withBench s c).RunsTo w (result, m') → result ≠ .error .stackUnderflow →
        (m.withBench s' c).RunsTo w (result, m'.atop below)) ∧
    ∀ line result m', line.utf8ByteSize < 2 ^ 63 → m.LineQuiet line →
      (m.withBench s c).EvalsTo line (result, m') → result ≠ .error .stackUnderflow →
        (m.withBench s' c).EvalsTo line (result, m'.atop below) := by
  obtain rfl := Stack.eq_atop_iff.2 ⟨hitems, hcapacity⟩
  have hsound : m.dict.Sound Primitive.Standard := h.sound fun _ hstandard => hstandard
  constructor
  · intro w result m' hw hquiet
    exact runsTo_atop (m := m.withBench s c) hsound hw hquiet below
  · intro line result m' hline hquiet hevals hresult
    rw [evalsTo_iff] at hevals ⊢
    rcases hc : m.compile line with ⟨e | (_ | w), m₁⟩
    · rw [compile_withBench hc] at hevals ⊢
      obtain ⟨rfl, rfl⟩ := Prod.mk.inj hevals
      rfl
    · rw [compile_withBench hc] at hevals ⊢
      obtain ⟨rfl, rfl⟩ := Prod.mk.inj hevals
      rfl
    · rw [compile_withBench hc] at hevals ⊢
      have hsound₁ : m₁.dict.Sound Primitive.Standard :=
        (h.compile (.of_primitives_eq_nil rfl) hc).sound fun _ hstandard => hstandard
      have haccepts : m₁.Accepts w := check_of_compile hc
      have hword : m₁.dict.Quiet w.body := hquiet.compile h hline hc
      exact runsTo_atop (m := m₁.withBench s c) hsound₁ haccepts hword below hevals hresult

/-- A definition that exchanges the two topmost items, and looks at both again. -/
theorem frame_rule_called :
    ∃ m m₁, Reachable (Command.Binds Primitive.Standard) m ∧ m.LineQuiet "TUCK SUB ." ∧
      (m.withBench ⟨[5, 2], 1⟩ "").EvalsTo "TUCK SUB ." (.ok (), m₁) ∧
      m₁.bench = ⟨⟨[5], 2⟩, "-3 "⟩ ∧
      (m.withBench ⟨[5, 2, 9, 7], 1⟩ "").EvalsTo "TUCK SUB ." (.ok (), m₁.atop [7, 9]) ∧
      (m₁.atop [7, 9]).bench = ⟨⟨[5, 9, 7], 2⟩, "-3 "⟩ := by
  obtain ⟨m, hm⟩ : ∃ m, m = ((boot {}).load.2.define "TUCK" "SWAP OVER").2 := ⟨_, rfl⟩
  have hdefine : (boot {}).load.2.define "TUCK" "SWAP OVER" = (.ok 17, m) := hm ▸ rfl
  have hloaded : Reachable (Command.Binds Primitive.Standard) (boot {}).load.2 :=
    .load (.of_primitives_eq_nil rfl) {}
  have hreach : Reachable (Command.Binds Primitive.Standard) m :=
    hloaded.define (.of_primitives_eq_nil rfl) hdefine
  have hline : lineSymbols "TUCK SUB ." = [.word "TUCK", .word "SUB", .word "."] := by decide
  have hquiet : m.LineQuiet "TUCK SUB ." := by
    have hprimitive : ∀ r name op, op ≠ .printStack →
        m.dict.get? r = some (.primitive name (.op op)) → m.dict.Quiet #[r] := by
      intro r name op hop hget
      refine (Dict.throughout_singleton_iff hget).2 ⟨?_, nofun⟩
      rintro _ heq
      cases heq
      exact hop rfl
    have hswap : m.dict.get? 13 = some (.primitive "SWAP" (.op .swap)) := by subst hm; rfl
    have hover : m.dict.get? 14 = some (.primitive "OVER" (.op .over)) := by subst hm; rfl
    have htuck : m.dict.get? 17 = some (.compound { name := "TUCK", body := #[13, 14] }) := by
      subst hm; rfl
    rw [LineQuiet, hline]
    intro text q htext hq
    obtain rfl | rfl | rfl : text = "TUCK" ∨ text = "SUB" ∨ text = "." := by simpa using htext
    · have hlookup : m.dict.lookup "TUCK" = some 17 := by subst hm; decide
      cases hlookup.symm.trans hq
      refine (Dict.throughout_singleton_iff htuck).2 ⟨fun _ => nofun, ?_⟩
      rintro _ ⟨⟩
      refine Dict.throughout_of_slots fun r hr => ?_
      obtain rfl | rfl : r = 13 ∨ r = 14 := by simpa using hr
      · exact hprimitive 13 "SWAP" .swap (by decide) hswap
      · exact hprimitive 14 "OVER" .over (by decide) hover
    · have hlookup : m.dict.lookup "SUB" = some 2 := by subst hm; decide
      cases hlookup.symm.trans hq
      exact hprimitive 2 "SUB" .sub (by decide) (by subst hm; rfl)
    · have hlookup : m.dict.lookup "." = some 15 := by subst hm; decide
      cases hlookup.symm.trans hq
      exact hprimitive 15 "." .printTop (by decide) (by subst hm; rfl)
  obtain ⟨m₁, hevals, hbench⟩ : ∃ m₁,
      (m.withBench ⟨[5, 2], 1⟩ "").eval 20 "TUCK SUB ." = some (.ok (), m₁) ∧
        m₁.bench = ⟨⟨[5], 2⟩, "-3 "⟩ := by
    subst hm
    exact ⟨_, rfl, by decide⟩
  obtain ⟨-, hframe⟩ := frame_rule hreach [7, 9] ⟨[5, 2], 1⟩ ⟨[5, 2, 9, 7], 1⟩ "" rfl rfl
  refine ⟨m, m₁, hreach, hquiet, ⟨20, hevals⟩, hbench, ?_, ?_⟩
  · exact hframe "TUCK SUB ." (.ok ()) m₁ (by decide) hquiet ⟨20, hevals⟩ nofun
  · rw [atop, hbench]
    rfl

end Machine

end Threaded
