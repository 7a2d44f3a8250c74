import Mathlib.Data.Int.ModEq
import Threaded.Proofs.EarlyBinding

/-!
# Arithmetic is exact modulo `2^64`

The operations that compute and compare take one or two cells off the top of the stack and leave one
in their place.  What lies below, the text printed and the dictionary are nothing to them
(`Op.Leaves`).

Which cell they leave is said over the integers.  A sum, a difference, a product and a negation is
the one cell that is congruent to the exact result (`Cell.Residue`).  A quotient is truncated
towards zero, and so is congruent to the exact one in any case; the two differ for the least cell
divided by minus one alone.  That is enough for quotient and remainder to agree always: the sum that
gives the dividend back is calculated in residues (`Cell.div_mul_add_mod`).

There are three shapes of such operations (`Op.act_of_arity?`), and what is said of failures is said
of the shapes.
-/

namespace Threaded

/-! ## Residues -/

namespace Cell

variable {n : Int} {c c' : Cell}

/-- The one cell that is congruent to `n`. -/
def Residue (n : Int) (c : Cell) : Prop :=
  ∀ c' : Cell, c'.toInt ≡ n [ZMOD 2 ^ 64] ↔ c' = c

/-- Cells are as many as there are residues. -/
theorem eq_of_modEq (h : c.toInt ≡ c'.toInt [ZMOD 2 ^ 64]) : c = c' := by
  have hge := c.le_toInt
  have hlt := c.toInt_lt
  have hge' := c'.le_toInt
  have hlt' := c'.toInt_lt
  unfold Int.ModEq at h
  exact Int64.toInt.inj (by omega)

/-- A cell that is congruent to a number is its residue, since no other cell is. -/
theorem residue_of_modEq (h : c.toInt ≡ n [ZMOD 2 ^ 64]) : Residue n c := fun _ =>
  ⟨fun h' => eq_of_modEq (h'.trans h.symm), fun heq => heq ▸ h⟩

variable (a b : Cell)

/-- A sum of cells is congruent to that of their integers. -/
theorem toInt_add_modEq : (a + b).toInt ≡ a.toInt + b.toInt [ZMOD 2 ^ 64] := by
  rw [Int64.toInt_add]
  exact Int.bmod_emod

/-- A difference of cells is congruent to that of their integers. -/
theorem toInt_sub_modEq : (a - b).toInt ≡ a.toInt - b.toInt [ZMOD 2 ^ 64] := by
  rw [Int64.toInt_sub]
  exact Int.bmod_emod

/-- A product of cells is congruent to that of their integers. -/
theorem toInt_mul_modEq : (a * b).toInt ≡ a.toInt * b.toInt [ZMOD 2 ^ 64] := by
  rw [Int64.toInt_mul]
  exact Int.bmod_emod

/-- The opposite of a cell is congruent to that of its integer. -/
theorem toInt_neg_modEq : (-a).toInt ≡ -a.toInt [ZMOD 2 ^ 64] := by
  rw [Int64.toInt_neg]
  exact Int.bmod_emod

/-- The quotient too, although it is exact but for one pair of cells. -/
theorem toInt_div_modEq : (a / b).toInt ≡ a.toInt.tdiv b.toInt [ZMOD 2 ^ 64] := by
  rw [Int64.toInt_div]
  exact Int.bmod_emod

/-! ## Division -/

/-- **Quotient and remainder agree**, whether the quotient wraps or not. -/
theorem div_mul_add_mod : a / b * b + a % b = a := by
  apply eq_of_modEq
  calc (a / b * b + a % b).toInt
    _ ≡ (a / b * b).toInt + (a % b).toInt [ZMOD 2 ^ 64] := toInt_add_modEq _ _
    _ ≡ (a / b).toInt * b.toInt + (a % b).toInt [ZMOD 2 ^ 64] :=
      (toInt_mul_modEq _ _).add_right _
    _ ≡ a.toInt.tdiv b.toInt * b.toInt + (a % b).toInt [ZMOD 2 ^ 64] :=
      ((toInt_div_modEq a b).mul_right _).add_right _
    _ = a.toInt := by rw [Int64.toInt_mod, Int.tdiv_mul_add_tmod]

variable {a b}

/-- The one quotient that does not fit is that of the least cell by minus one. -/
theorem toInt_div (h : ¬(a = Int64.minValue ∧ b = -1)) :
    (a / b).toInt = a.toInt.tdiv b.toInt := by
  by_cases ha : a = Int64.minValue
  · exact Int64.toInt_div_of_ne_right a b fun hb => h ⟨ha, hb⟩
  · exact Int64.toInt_div_of_ne_left a b ha

/-- A remainder is smaller than the divisor. -/
theorem natAbs_toInt_mod_lt (hb : b ≠ 0) : (a % b).toInt.natAbs < b.toInt.natAbs := by
  have hne : b.toInt ≠ 0 := fun hzero => hb (Int64.toInt.inj hzero)
  rw [Int64.toInt_mod, Int.natAbs_tmod]
  exact Nat.mod_lt _ (Int.natAbs_pos.2 hne)

/-- A remainder follows the dividend. -/
theorem mod_eq_zero_or_sign_eq : a % b = 0 ∨ (a % b).toInt.sign = a.toInt.sign := by
  rw [Int64.toInt_mod, Int.sign_tmod]
  split
  · next hdvd =>
    have hzero : (a % b).toInt = (0 : Cell).toInt := by
      rw [Int64.toInt_mod, Int.tmod_eq_zero_of_dvd hdvd]
      rfl
    exact .inl (Int64.toInt.inj hzero)
  · exact .inr rfl

end Cell

/-! ## The shapes of operations -/

namespace Bench

variable {f : Cell → Cell → Cell} {a b : Cell} {below : List Cell} {room : Nat} {text : String}

/-- One operand is replaced by its result. -/
theorem perform_unary {f : Cell → Cell} :
    perform ⟨⟨a :: below, room⟩, text⟩ (unary f) = (.ok (), ⟨⟨f a :: below, room⟩, text⟩) :=
  rfl

/-- Two operands are replaced by their result. -/
theorem perform_binary :
    perform ⟨⟨b :: a :: below, room⟩, text⟩ (binary f) =
      (.ok (), ⟨⟨f a b :: below, room + 1⟩, text⟩) :=
  rfl

/-- Two operands are replaced by their result when the divisor is not zero. -/
theorem perform_dividing (hb : b ≠ 0) :
    perform ⟨⟨b :: a :: below, room⟩, text⟩ (dividing f) =
      (.ok (), ⟨⟨f a b :: below, room + 1⟩, text⟩) := by
  unfold dividing
  simp only [perform_bind, perform_pop, Stack.pop, if_neg hb]
  rfl

/-- Both operands are gone when a zero is found. -/
theorem perform_dividing_zero :
    perform ⟨⟨0 :: a :: below, room⟩, text⟩ (dividing f) =
      (.error .divisionByZero, ⟨⟨below, room + 2⟩, text⟩) := by
  unfold dividing
  simp only [perform_bind, perform_pop, Stack.pop, if_pos]
  rfl

/-- Nothing can be taken off an empty stack, -/
theorem perform_pop_of_depth_lt {b : Bench} (h : b.stack.depth < 1) (g : Cell → Action Unit) :
    b.perform (pop >>= g) = (.error .stackUnderflow, { b with stack := b.stack.clear }) := by
  obtain ⟨⟨_ | ⟨x, items⟩, room⟩, text⟩ := b
  · simp [perform_bind, perform_pop, Stack.pop, Stack.clear, Stack.capacity, Stack.empty]
  · simp [Stack.depth] at h

/-- and from a stack of one only the one. -/
theorem perform_pop_pop_of_depth_lt {b : Bench} (h : b.stack.depth < 2)
    (g : Cell → Cell → Action Unit) :
    b.perform (pop >>= fun y => pop >>= fun x => g x y) =
      (.error .stackUnderflow, { b with stack := b.stack.clear }) := by
  obtain ⟨⟨_ | ⟨x, items⟩, room⟩, text⟩ := b
  · exact perform_pop_of_depth_lt (b := ⟨⟨[], room⟩, text⟩) Nat.one_pos _
  · have hone : items.length < 1 := Nat.lt_of_succ_lt_succ h
    obtain rfl : items = [] := List.length_eq_zero_iff.1 (Nat.lt_one_iff.1 hone)
    have hclear : Stack.clear ⟨[x], room⟩ = Stack.clear ⟨[], room + 1⟩ := by
      simp [Stack.clear, Stack.capacity, Nat.add_comm]
    rw [perform_bind, hclear]
    exact perform_pop_of_depth_lt (b := ⟨⟨[], room + 1⟩, text⟩) Nat.one_pos _

end Bench

namespace Op

/-- How many operands an operation takes that computes or compares. -/
def arity? : Op → Option Nat
  | .add | .sub | .mul | .div | .mod | .eq | .lt | .gt => some 2
  | .neg | .not => some 1
  | .dup | .drop | .swap | .over | .printTop | .printStack => none

variable {op : Op} {f : Cell → Cell → Cell} {n : Nat}

/-- **An operation that computes or compares** has one of three shapes. -/
theorem act_of_arity? (h : op.arity? = some n) :
    (n = 1 ∧ ∃ f, Bench.act op = Bench.unary f) ∨ (n = 2 ∧ ∃ f, Bench.act op = Bench.binary f) ∨
      (n = 2 ∧ ∃ f, Bench.act op = Bench.dividing f) := by
  cases op with
  | neg | not => exact .inl ⟨(Option.some.inj h).symm, _, rfl⟩
  | add | sub | mul | eq | lt | gt => exact .inr (.inl ⟨(Option.some.inj h).symm, _, rfl⟩)
  | div | mod => exact .inr (.inr ⟨(Option.some.inj h).symm, _, rfl⟩)
  | dup | drop | swap | «over» | printTop | printStack => cases h

/-! ## Operands and what is left in their place -/

/-- With these operands on the stack, the topmost last, the operation has this result and leaves
these items in their place.  What lies below stays, and so does all else of the machine. -/
def Leaves (op : Op) (operands : List Cell) (result : Except Error Unit) (left : List Cell) :
    Prop :=
  ∀ (m : Machine) (r : Ref) (below : List Cell), m.bench.stack.toList = below ++ operands →
    ∃ s : Stack Cell, s.toList = below ++ left ∧ s.capacity = m.bench.stack.capacity ∧
      m.call r (.op op) = (result.map fun () => [], m.withBench s m.console)

/-- An operation is called to act on the bench. -/
theorem call_eq (m : Machine) (r : Ref) (op : Op) :
    m.call r (.op op) =
      ((m.bench.perform (Bench.act op)).1.map fun () => [],
        { m with bench := (m.bench.perform (Bench.act op)).2 }) :=
  rfl

/-- What is left on every bench that has the operands on top.  The places of what is not put back are
free. -/
theorem leaves_of_perform {operands left : List Cell} {result : Except Error Unit}
    (hlength : left.length ≤ operands.length)
    (h : ∀ below room text,
      Bench.perform ⟨⟨operands.reverse ++ below, room⟩, text⟩ (Bench.act op) =
        (result, ⟨⟨left.reverse ++ below, room + (operands.length - left.length)⟩, text⟩)) :
    op.Leaves operands result left := by
  rintro ⟨limits, dict, ⟨⟨items, room⟩, text⟩⟩ r below hitems
  obtain rfl : items = operands.reverse ++ below.reverse := by
    rw [← List.reverse_append, ← hitems]
    exact (List.reverse_reverse items).symm
  refine ⟨⟨left.reverse ++ below.reverse, room + (operands.length - left.length)⟩, ?_, ?_, ?_⟩
  · simp [Stack.toList]
  · simp only [Stack.capacity, List.length_append, List.length_reverse]
    omega
  · simp only [call_eq, h]
    rfl

/-- An operation on one operand leaves its result. -/
theorem leaves_unary {f : Cell → Cell} (h : Bench.act op = Bench.unary f) (a : Cell) :
    op.Leaves [a] (.ok ()) [f a] :=
  leaves_of_perform (Nat.le_refl 1) fun _ _ _ => h ▸ Bench.perform_unary

/-- An operation on two operands leaves their result. -/
theorem leaves_binary (h : Bench.act op = Bench.binary f) (a b : Cell) :
    op.Leaves [a, b] (.ok ()) [f a b] :=
  leaves_of_perform (Nat.le_succ 1) fun _ _ _ => h ▸ Bench.perform_binary

/-- An operation that divides leaves its result when the divisor is not zero. -/
theorem leaves_dividing (h : Bench.act op = Bench.dividing f) (a : Cell) {b : Cell} (hb : b ≠ 0) :
    op.Leaves [a, b] (.ok ()) [f a b] :=
  leaves_of_perform (Nat.le_succ 1) fun _ _ _ => h ▸ Bench.perform_dividing hb

/-- An operation that divides by zero fails and leaves nothing of its operands. -/
theorem leaves_dividing_zero (h : Bench.act op = Bench.dividing f) (a : Cell) :
    op.Leaves [a, 0] (.error .divisionByZero) [] :=
  leaves_of_perform (Nat.zero_le 2) fun _ _ _ => h ▸ Bench.perform_dividing_zero

/-! ## Failures -/

variable {m m' : Machine} {r : Ref} {e : Error}

/-- **With fewer operands than it takes** an operation fails, and what was there is taken. -/
theorem call_of_depth_lt (h : op.arity? = some n) (hdepth : m.bench.stack.depth < n) :
    m.call r (.op op) = (.error .stackUnderflow, m.withBench m.bench.stack.clear m.console) := by
  have hperform : m.bench.perform (Bench.act op) =
      (.error .stackUnderflow, { m.bench with stack := m.bench.stack.clear }) := by
    rcases act_of_arity? h with ⟨rfl, f, hact⟩ | ⟨rfl, f, hact⟩ | ⟨rfl, f, hact⟩
    · rw [hact]
      exact Bench.perform_pop_of_depth_lt hdepth _
    · rw [hact]
      exact Bench.perform_pop_pop_of_depth_lt hdepth _
    · rw [hact]
      exact Bench.perform_pop_pop_of_depth_lt hdepth _
  rw [call_eq, hperform]
  rfl

/-- With all its operands an operation fails for a zero only. -/
theorem leaves_of_length_eq (h : op.arity? = some n) {operands : List Cell}
    (hlength : operands.length = n) :
    (∃ v, op.Leaves operands (.ok ()) [v]) ∨ op.Leaves operands (.error .divisionByZero) [] := by
  rcases act_of_arity? h with ⟨rfl, f, hact⟩ | ⟨rfl, f, hact⟩ | ⟨rfl, f, hact⟩
  · obtain ⟨a, rfl⟩ := List.length_eq_one_iff.1 hlength
    exact .inl ⟨_, leaves_unary hact a⟩
  · obtain ⟨a, b, rfl⟩ := List.length_eq_two.1 hlength
    exact .inl ⟨_, leaves_binary hact a b⟩
  · obtain ⟨a, b, rfl⟩ := List.length_eq_two.1 hlength
    by_cases hb : b = 0
    · subst hb
      exact .inr (leaves_dividing_zero hact a)
    · exact .inl ⟨_, leaves_dividing hact a hb⟩

/-- **An operation that fails** has taken its operands, or all that was there, and leaves what was
below them. -/
theorem exists_of_call_eq_error (h : op.arity? = some n)
    (hcall : m.call r (.op op) = (.error e, m')) :
    ∃ (s : Stack Cell) (popped : List Cell), m' = m.withBench s m.console ∧
      s.capacity = m.bench.stack.capacity ∧ m.bench.stack.toList = s.toList ++ popped ∧
        popped.length = min n m.bench.stack.depth := by
  by_cases hdepth : m.bench.stack.depth < n
  · rw [call_of_depth_lt h hdepth] at hcall
    refine ⟨_, m.bench.stack.toList, (Prod.mk.inj hcall).2.symm, Stack.capacity_clear _, rfl, ?_⟩
    rw [Stack.toList, List.length_reverse, Nat.min_eq_right (Nat.le_of_lt hdepth)]
    rfl
  · obtain ⟨below, operands, hitems, hlength⟩ : ∃ below operands,
        m.bench.stack.toList = below ++ operands ∧ operands.length = n := by
      refine ⟨_, _, (List.take_append_drop (m.bench.stack.depth - n) _).symm, ?_⟩
      rw [List.length_drop, Stack.toList, List.length_reverse, ← Stack.depth]
      omega
    rcases leaves_of_length_eq h hlength with ⟨v, hleaves⟩ | hleaves
    · obtain ⟨_, _, _, hok⟩ := hleaves m r below hitems
      rw [hok] at hcall
      cases hcall
    · obtain ⟨s, hs, hcapacity, hfails⟩ := hleaves m r below hitems
      rw [hfails] at hcall
      rw [List.append_nil] at hs
      refine ⟨s, operands, (Prod.mk.inj hcall).2.symm, hcapacity, hs ▸ hitems, ?_⟩
      rw [hlength, Nat.min_eq_left (Nat.le_of_not_lt hdepth)]

/-! ## The theorem -/

/-- What is left of a dividend `a` and a divisor `b`. -/
structure Division (a b quotient remainder : Cell) : Prop where
  div : Op.div.Leaves [a, b] (.ok ()) [quotient]
  mod : Op.mod.Leaves [a, b] (.ok ()) [remainder]
  /-- The quotient is truncated towards zero, -/
  truncated : ¬(a = Int64.minValue ∧ b = -1) → quotient.toInt = a.toInt.tdiv b.toInt
  /-- and wraps to the least cell where it does not fit. -/
  wrapped : a = Int64.minValue → b = -1 → quotient = Int64.minValue
  remainder_lt : remainder.toInt.natAbs < b.toInt.natAbs
  remainder_sign : remainder = 0 ∨ remainder.toInt.sign = a.toInt.sign
  /-- Multiplied and added up again they give the dividend. -/
  undone : ∃ product, Op.mul.Leaves [quotient, b] (.ok ()) [product] ∧
    Op.add.Leaves [product, remainder] (.ok ()) [a]

/-- The quotient and the remainder of two cells are those of a division. -/
theorem division (a : Cell) {b : Cell} (hb : b ≠ 0) : Division a b (a / b) (a % b) where
  div := leaves_dividing rfl a hb
  mod := leaves_dividing rfl a hb
  truncated := Cell.toInt_div
  wrapped := by
    rintro rfl rfl
    decide
  remainder_lt := Cell.natAbs_toInt_mod_lt hb
  remainder_sign := Cell.mod_eq_zero_or_sign_eq
  undone := by
    refine ⟨a / b * b, leaves_binary rfl _ _, ?_⟩
    have hsum : Op.add.Leaves [a / b * b, a % b] (.ok ()) [a / b * b + a % b] :=
      leaves_binary rfl _ _
    rwa [Cell.div_mul_add_mod] at hsum

/-- **Arithmetic is exact modulo `2^64`, and touches only its operands.** -/
theorem arithmetic_exact :
    (∀ a b : Cell,
      (∃ sum, Op.add.Leaves [a, b] (.ok ()) [sum] ∧ Cell.Residue (a.toInt + b.toInt) sum) ∧
      (∃ difference, Op.sub.Leaves [a, b] (.ok ()) [difference] ∧
        Cell.Residue (a.toInt - b.toInt) difference) ∧
      (∃ product, Op.mul.Leaves [a, b] (.ok ()) [product] ∧
        Cell.Residue (a.toInt * b.toInt) product) ∧
      ∃ negation, Op.neg.Leaves [a] (.ok ()) [negation] ∧ Cell.Residue (-a.toInt) negation) ∧
    (∀ a, Op.div.Leaves [a, 0] (.error .divisionByZero) [] ∧
      Op.mod.Leaves [a, 0] (.error .divisionByZero) []) ∧
    (∀ a b, b ≠ 0 → ∃ quotient remainder, Division a b quotient remainder) ∧
    ∀ (op : Op) n, op.arity? = some n → ∀ (m : Machine) (r : Ref),
      (m.bench.stack.depth < n → m.call r (.op op) =
        (.error .stackUnderflow, m.withBench m.bench.stack.clear m.console)) ∧
      ∀ e m', m.call r (.op op) = (.error e, m') → ∃ (s : Stack Cell) (popped : List Cell),
        m' = m.withBench s m.console ∧ s.capacity = m.bench.stack.capacity ∧
          m.bench.stack.toList = s.toList ++ popped ∧
            popped.length = min n m.bench.stack.depth := by
  refine ⟨fun a b => ⟨?_, ?_, ?_, ?_⟩, fun a => ⟨?_, ?_⟩, ?_, fun op n h m r => ⟨?_, ?_⟩⟩
  · exact ⟨_, leaves_binary rfl a b, Cell.residue_of_modEq (Cell.toInt_add_modEq a b)⟩
  · exact ⟨_, leaves_binary rfl a b, Cell.residue_of_modEq (Cell.toInt_sub_modEq a b)⟩
  · exact ⟨_, leaves_binary rfl a b, Cell.residue_of_modEq (Cell.toInt_mul_modEq a b)⟩
  · exact ⟨_, leaves_unary rfl a, Cell.residue_of_modEq (Cell.toInt_neg_modEq a)⟩
  · exact leaves_dividing_zero rfl a
  · exact leaves_dividing_zero rfl a
  · exact fun a b hb => ⟨_, _, division a hb⟩
  · exact call_of_depth_lt h
  · exact fun e m' => exists_of_call_eq_error h

/-- The one quotient that wraps; a comparison of a single cell; and a remainder by zero. -/
theorem arithmetic_exact_wrapping :
    (∃ quotient remainder, Division Int64.minValue (-1) quotient remainder ∧
      quotient = Int64.minValue) ∧
    ((Machine.boot {}).withBench ⟨[7], 2⟩ "").call 8 (.op .lt) =
      (.error .stackUnderflow, (Machine.boot {}).withBench ⟨[], 3⟩ "") ∧
    ∃ m' s popped, ((Machine.boot {}).withBench ⟨[0, 5, 9], 2⟩ "").call 5 (.op .mod) =
        (.error .divisionByZero, m') ∧ m' = (Machine.boot {}).withBench s "" ∧
      [9, 5, 0] = s.toList ++ popped ∧ popped.length = 2 := by
  obtain ⟨-, -, hdivision, hfailing⟩ := arithmetic_exact
  obtain ⟨quotient, remainder, hdiv⟩ := hdivision Int64.minValue (-1) (by decide)
  have hunder := (hfailing .lt 2 rfl ((Machine.boot {}).withBench ⟨[7], 2⟩ "") 8).1 (by decide)
  obtain ⟨s, popped, hm, -, hitems, hlength⟩ :=
    (hfailing .mod 2 rfl ((Machine.boot {}).withBench ⟨[0, 5, 9], 2⟩ "") 5).2 _ _ rfl
  exact ⟨⟨quotient, remainder, hdiv, hdiv.wrapped rfl rfl⟩, hunder, _, s, popped, rfl, hm, hitems,
    hlength⟩

end Op

end Threaded
