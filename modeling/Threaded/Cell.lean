/-!
# Cells

A cell is what the data stack holds and what a branch offset is written in: a signed
64-bit word.  Ordinary arithmetic on cells wraps, so sums, differences and products are
exact modulo `2^64`; division truncates towards zero and the remainder follows the
dividend.  Jump arithmetic must not wrap, because a wrapped target could fall inside a word
by accident, so it has an addition of its own that stops at the ends of the range.
-/

namespace Threaded

/-- A signed 64-bit word with wrapping arithmetic. -/
abbrev Cell := Int64

namespace Cell

/-- The cell that reads as `n`, if there is one. -/
def ofInt? (n : Int) : Option Cell :=
  if Int64.minValue.toInt ≤ n ∧ n ≤ Int64.maxValue.toInt then some (Int64.ofInt n) else none

/-- A count or position as a cell; counts from `2^63` on wrap to negative cells. -/
def ofCount (n : Nat) : Cell :=
  Int64.ofInt n

/-- The truth values of the comparison words: one for true, zero for false. -/
def ofBool (b : Bool) : Cell :=
  if b then 1 else 0

/-- Addition that stops at the least and the greatest cell instead of wrapping. -/
def addClamped (a b : Cell) : Cell :=
  Int64.ofIntClamp (a.toInt + b.toInt)

/-- Decimal digits, after a minus sign if the cell is negative. -/
def render (n : Cell) : String :=
  n.toInt.repr

/-- Decimal digits after a sign, which is written for positive cells and zero too. -/
def renderSigned (n : Cell) : String :=
  if n < 0 then n.render else "+" ++ n.render

/-- Zero is written as one digit. -/
@[simp] theorem render_zero : render 0 = "0" := by decide

/-- A cell is read from its own integer value and from no other. -/
theorem ofInt?_eq_some_iff {n : Int} {c : Cell} : ofInt? n = some c ↔ c.toInt = n := by
  unfold ofInt?
  split
  · next h =>
    have hn : (Int64.ofInt n).toInt = n :=
      Int64.toInt_ofInt_of_le h.1 (Int.lt_add_one_of_le h.2)
    exact ⟨fun hs => by rw [← Option.some.inj hs, hn],
      fun hv => congrArg some (Int64.toInt.inj (by rw [hn, hv]))⟩
  · next h =>
    exact ⟨fun hs => absurd hs (by simp),
      fun hv => absurd ⟨hv ▸ c.minValue_le_toInt, hv ▸ c.toInt_le⟩ h⟩

end Cell

end Threaded
