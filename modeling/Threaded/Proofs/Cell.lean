import Mathlib.Algebra.Group.Int.Defs
import Mathlib.Algebra.Group.Nat.Defs
import Threaded.Cell

/-!
# Cells as integers

A cell is read as an integer, and what is asked of it is asked there: which counts and clamped
integers are read back as they were (`toInt_ofCount`, `toInt_ofIntClamp`), and what the sign of a
cell says.  The powers of two in the bounds are powers in the monoids of numbers.

A cell that is written out consists of few characters, digits and a minus sign at most.
-/

namespace Threaded.Cell

/-! ## The range -/

/-- A count below `2^63` is kept. -/
theorem toInt_ofCount {n : Nat} (h : n < 2 ^ 63) : (ofCount n).toInt = n :=
  Int64.toInt_ofInt_of_le (by omega) (by omega)

/-- A clamped integer is itself inside the range and the nearer end outside. -/
theorem toInt_ofIntClamp (n : Int) :
    (Int64.ofIntClamp n).toInt = max (-2 ^ 63) (min (2 ^ 63 - 1) n) := by
  have hmin : Int64.minValue.toInt = -2 ^ 63 := by decide
  have hmax : Int64.maxValue.toInt = 2 ^ 63 - 1 := by decide
  unfold Int64.ofIntClamp
  split
  · next hl =>
    split
    · next hr =>
      rw [Int64.toInt_ofIntLE]
      omega
    · next hr => omega
  · next hl => omega

/-! ## The sign -/

variable {n : Cell}

/-- A cell is positive exactly if its integer is. -/
theorem pos_iff_toInt : 0 < n ↔ 0 < n.toInt :=
  Int64.lt_iff_toInt_lt

/-- A cell is negative exactly if its integer is. -/
theorem neg_iff_toInt : n < 0 ↔ n.toInt < 0 :=
  Int64.lt_iff_toInt_lt

/-- A positive cell is not zero. -/
theorem ne_zero_of_pos (h : 0 < n) : n ≠ 0 := by
  rintro rfl
  exact absurd h (by decide)

/-- A negative cell is not zero. -/
theorem ne_zero_of_neg (h : n < 0) : n ≠ 0 := by
  rintro rfl
  exact absurd h (by decide)

/-- A cell below zero is negated without wrapping. -/
theorem toInt_neg_sub_one (h : n < 0) : (-n - 1).toInt = -n.toInt - 1 := by
  have hone : (1 : Cell).toInt = 1 := by decide
  have hlt := neg_iff_toInt.1 h
  have hge := n.le_toInt
  rw [Int64.toInt_sub, Int64.toInt_neg, hone, Int.bmod_sub_bmod, Int.bmod_def]
  omega

/-! ## Rendering -/

/-- A rendered cell is made of digits and a minus sign. -/
theorem eq_or_isDigit_of_mem_render {n : Cell} {c : Char} (h : c ∈ n.render.toList) :
    c = '-' ∨ c.isDigit := by
  have hdigit : ∀ k : Nat, c ∈ k.repr.toList → c.isDigit := by
    intro k hk
    rw [Nat.repr_eq_ofList_toDigits, String.toList_ofList] at hk
    exact Nat.isDigit_of_mem_toDigits (by decide) (by decide) hk
  unfold render at h
  rw [Int.repr_eq_if] at h
  split at h
  · exact .inr (hdigit _ h)
  · rw [String.toList_append] at h
    rcases List.mem_append.1 h with h | h
    · exact .inl (by simpa using h)
    · exact .inr (hdigit _ h)

/-- A cell is written in at most twenty-one characters: a sign and twenty digits. -/
theorem length_render_le (n : Cell) : n.render.length ≤ 21 := by
  have hge := n.le_toInt
  have hlt := n.toInt_lt
  have hdigits : ∀ k : Nat, k < 10 ^ 20 → k.repr.length ≤ 20 := fun k hk =>
    (Nat.length_repr_le_iff (by decide)).2 hk
  unfold render
  rw [Int.repr_eq_if]
  split
  · exact Nat.le_succ_of_le (hdigits _ (by omega))
  · have hlen := hdigits (-n.toInt).toNat (by omega)
    have hsign : "-".length = 1 := rfl
    rw [String.length_append]
    omega

end Threaded.Cell
