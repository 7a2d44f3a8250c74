import Threaded.Machine

/-!
# What the actions on a bench raise

An action is performed one part after the other (`perform_bind`), and the elementary actions have
a plain reading.  An action **raises only** errors of some kind if that is so on every bench; this
is inherited from the parts of an action (`RaisesOnly.bind`), so for the operations it comes down
to the three errors that a stack and a division have (`raisesOnly_act`).
-/

namespace Threaded

namespace Bench

variable {α β : Type}

/-! ## Performing -/

/-- An action that only gives a value leaves the bench. -/
theorem perform_pure (b : Bench) (a : α) : b.perform (pure a) = (.ok a, b) := rfl

/-- An action that only fails leaves the bench. -/
theorem perform_throw (b : Bench) (e : Error) :
    b.perform (throw e : Action α) = (.error e, b) := rfl

/-- What comes second starts where the first left off, unless that failed. -/
theorem perform_bind (b : Bench) (x : Action α) (f : α → Action β) :
    b.perform (x >>= f) =
      match b.perform x with
      | (.ok a, b) => b.perform (f a)
      | (.error e, b) => (.error e, b) := by
  unfold perform ExceptT.run StateT.run
  simp only [bind, ExceptT.bind, ExceptT.mk, StateT.bind, ExceptT.bindCont]
  cases x b with
  | mk r b => cases r <;> rfl

/-- A push is one on the stack of the bench; if it is refused, the bench stays. -/
theorem perform_push (b : Bench) (n : Cell) :
    b.perform (push n) =
      match b.stack.push n with
      | .ok stack => (.ok (), { b with stack })
      | .error e => (.error e, b) := by
  unfold push
  rw [perform_bind]
  show b.perform (match b.stack.push n with
    | .ok stack => modify ({ · with stack })
    | .error e => throw e) = _
  cases b.stack.push n <;> rfl

/-- A pop is one from the stack of the bench; if it is refused, the bench stays. -/
theorem perform_pop (b : Bench) :
    b.perform pop =
      match b.stack.pop with
      | .ok (n, stack) => (.ok n, { b with stack })
      | .error e => (.error e, b) := by
  unfold pop
  rw [perform_bind]
  show b.perform (match b.stack.pop with
    | .ok (n, stack) => do modify ({ · with stack }); return n
    | .error e => throw e) = _
  cases b.stack.pop <;> rfl

/-- A look at an item changes nothing, and fails if there is none. -/
theorem perform_peek (b : Bench) (i : Nat) :
    b.perform (peek i) =
      match b.stack.get? i with
      | some v => (.ok v, b)
      | none => (.error .stackUnderflow, b) := by
  unfold peek
  rw [perform_bind]
  show b.perform (match b.stack.get? i with
    | some v => pure v
    | none => throw .stackUnderflow) = _
  cases b.stack.get? i <;> rfl

/-! ## Raising -/

/-- All errors of an action satisfy `p`. -/
def RaisesOnly (p : Error → Prop) (x : Action α) : Prop :=
  ∀ (b : Bench) (e : Error), (b.perform x).1 = .error e → p e

namespace RaisesOnly

variable {p : Error → Prop} {x : Action α} {f : α → Action β}

/-- A value raises nothing. -/
theorem pure (a : α) : RaisesOnly p (pure a : Action α) := by
  intro b e h
  rw [perform_pure] at h
  simp at h

/-- A failure raises its own error. -/
theorem throw {e : Error} (he : p e) : RaisesOnly p (throw e : Action α) := by
  intro b e' h
  rw [perform_throw] at h
  obtain rfl := Except.error.inj h
  exact he

/-- The parts of an action raise what it raises. -/
theorem bind (hx : RaisesOnly p x) (hf : ∀ a, RaisesOnly p (f a)) : RaisesOnly p (x >>= f) := by
  intro b e h
  have hfirst := hx b
  rw [perform_bind] at h
  split at h
  · next a b' hb => exact hf a b' e h
  · next e' b' hb =>
    cases h
    exact hfirst e (by rw [hb])

/-- Reading the bench raises nothing. -/
theorem get : RaisesOnly p (get : Action Bench) := by
  intro b e h
  cases h

/-- Changing the bench raises nothing. -/
theorem modify (f : Bench → Bench) : RaisesOnly p (modify f : Action Unit) := by
  intro b e h
  cases h

/-- A push overflows at worst. -/
theorem push (hover : p .stackOverflow) (n : Cell) : RaisesOnly p (push n) := by
  intro b e h
  rw [perform_push] at h
  split at h
  · simp at h
  · next e' hb =>
    cases h
    rw [(Stack.push_eq_error_iff.1 hb).2]
    exact hover

/-- A pop underflows at worst. -/
theorem pop (hunder : p .stackUnderflow) : RaisesOnly p pop := by
  intro b e h
  rw [perform_pop] at h
  split at h
  · simp at h
  · next e' hb =>
    cases h
    rw [(Stack.pop_eq_error_iff.1 hb).2]
    exact hunder

/-- A look below the top underflows at worst. -/
theorem peek (hunder : p .stackUnderflow) (i : Nat) : RaisesOnly p (peek i) := by
  unfold Bench.peek
  refine get.bind ?_
  intro b
  split
  · exact pure _
  · exact throw hunder

/-- Printing raises nothing. -/
theorem print (text : String) : RaisesOnly p (print text) :=
  modify _

/-- One operand: no item to take, or no room for the result. -/
theorem unary (hunder : p .stackUnderflow) (hover : p .stackOverflow) (f : Cell → Cell) :
    RaisesOnly p (unary f) :=
  (pop hunder).bind fun _ => push hover _

/-- Two operands: an item missing, or no room for the result. -/
theorem binary (hunder : p .stackUnderflow) (hover : p .stackOverflow)
    (f : Cell → Cell → Cell) : RaisesOnly p (binary f) :=
  (pop hunder).bind fun _ => (pop hunder).bind fun _ => push hover _

/-- Two operands of which the divisor may be zero. -/
theorem dividing (hunder : p .stackUnderflow) (hover : p .stackOverflow)
    (hzero : p .divisionByZero) (f : Cell → Cell → Cell) : RaisesOnly p (dividing f) := by
  refine (pop hunder).bind fun b => (pop hunder).bind ?_
  intro a
  split
  · exact throw hzero
  · exact push hover _

end RaisesOnly

/-- **The operations** raise nothing but what a stack and a division raise. -/
theorem raisesOnly_act {p : Error → Prop} (hunder : p .stackUnderflow)
    (hover : p .stackOverflow) (hzero : p .divisionByZero) (op : Op) :
    RaisesOnly p (act op) := by
  cases op with
  | add | sub | mul | eq | lt | gt => exact .binary hunder hover _
  | div | mod => exact .dividing hunder hover hzero _
  | neg | not => exact .unary hunder hover _
  | dup | «over» => exact (RaisesOnly.peek hunder _).bind fun _ => .push hover _
  | drop => exact (RaisesOnly.pop hunder).bind fun _ => .pure _
  | swap =>
    exact (RaisesOnly.pop hunder).bind fun b => (RaisesOnly.pop hunder).bind fun a =>
      (RaisesOnly.push hover b).bind fun _ => .push hover a
  | printTop => exact (RaisesOnly.pop hunder).bind fun _ => .print _
  | printStack => exact RaisesOnly.get.bind fun _ => .print _

end Bench

end Threaded
