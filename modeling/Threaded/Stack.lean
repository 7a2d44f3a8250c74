import Threaded.Error

/-!
# Bounded stacks

A stack is a list with the top in front, together with the number of places still free.
Keeping the free places and not the capacity makes the bound a matter of structure: a push
takes a place, a pop gives one back, and the capacity, which is the sum of the two, never
changes.
-/

namespace Threaded

/-- A stack of bounded size. -/
structure Stack (α : Type) where
  /-- The items, top first. -/
  items : List α
  /-- How many more items fit. -/
  room : Nat
  deriving DecidableEq, Repr

namespace Stack

variable {α : Type}

/-- The empty stack with room for `capacity` items.  Allocation is idealised: every capacity is
granted.  Where the places are reserved in advance, a stack of `2 ^ 60` cells or more cannot be had,
since its size in bytes is above the greatest signed number of 64 bits. -/
def empty (capacity : Nat) : Stack α :=
  ⟨[], capacity⟩

/-- How many items the stack holds at most. -/
def capacity (s : Stack α) : Nat :=
  s.items.length + s.room

/-- How many items the stack holds. -/
def depth (s : Stack α) : Nat :=
  s.items.length

/-- The items, bottom first. -/
def toList (s : Stack α) : List α :=
  s.items.reverse

/-- The stack with an item more, unless it is full. -/
def push (s : Stack α) (a : α) : Except Error (Stack α) :=
  match s.room with
  | 0 => .error .stackOverflow
  | room + 1 => .ok ⟨a :: s.items, room⟩

/-- The top, and the stack without it, unless it is empty. -/
def pop (s : Stack α) : Except Error (α × Stack α) :=
  match s.items with
  | [] => .error .stackUnderflow
  | a :: items => .ok (a, ⟨items, s.room + 1⟩)

/-- The item on top. -/
def top? (s : Stack α) : Option α :=
  s.items.head?

/-- The item `i` places below the top. -/
def get? (s : Stack α) (i : Nat) : Option α :=
  s.items[i]?

/-- The stack without its items; their places are free again. -/
def clear (s : Stack α) : Stack α :=
  empty s.capacity

/-- An empty stack has the capacity it was made with. -/
@[simp] theorem capacity_empty (n : Nat) : (empty n : Stack α).capacity = n := by
  simp [empty, capacity]

/-- Clearing keeps the capacity. -/
@[simp] theorem capacity_clear (s : Stack α) : s.clear.capacity = s.capacity := by
  simp [clear]

/-- What a push leaves. -/
theorem push_eq_ok_iff {s t : Stack α} {a : α} :
    s.push a = .ok t ↔ t.items = a :: s.items ∧ s.room = t.room + 1 := by
  obtain ⟨items, room⟩ := s
  obtain ⟨items', room'⟩ := t
  cases room with
  | zero => simp [push]
  | succ room =>
    simp only [push, Except.ok.injEq, mk.injEq, Nat.add_right_cancel_iff]
    exact ⟨fun h => ⟨h.1.symm, h.2⟩, fun h => ⟨h.1.symm, h.2⟩⟩

/-- What a pop gives and leaves. -/
theorem pop_eq_ok_iff {s t : Stack α} {a : α} :
    s.pop = .ok (a, t) ↔ s.items = a :: t.items ∧ t.room = s.room + 1 := by
  obtain ⟨items, room⟩ := s
  obtain ⟨items', room'⟩ := t
  cases items with
  | nil => simp [pop]
  | cons b items =>
    simp only [pop, Except.ok.injEq, Prod.mk.injEq, mk.injEq, List.cons.injEq]
    exact ⟨fun h => ⟨⟨h.1, h.2.1⟩, h.2.2.symm⟩, fun h => ⟨h.1.1, h.1.2, h.2.symm⟩⟩

/-- A push goes on top of the items. -/
theorem items_of_push {s t : Stack α} {a : α} (h : s.push a = .ok t) :
    t.items = a :: s.items :=
  (push_eq_ok_iff.1 h).1

/-- A pop takes the first item. -/
theorem items_of_pop {s t : Stack α} {a : α} (h : s.pop = .ok (a, t)) :
    s.items = a :: t.items :=
  (pop_eq_ok_iff.1 h).1

/-- A push keeps the capacity. -/
theorem capacity_of_push {s t : Stack α} {a : α} (h : s.push a = .ok t) :
    t.capacity = s.capacity := by
  obtain ⟨hitems, hroom⟩ := push_eq_ok_iff.1 h
  simp only [capacity, hitems, List.length_cons]
  omega

/-- A pop keeps the capacity. -/
theorem capacity_of_pop {s t : Stack α} {a : α} (h : s.pop = .ok (a, t)) :
    t.capacity = s.capacity := by
  obtain ⟨hitems, hroom⟩ := pop_eq_ok_iff.1 h
  simp only [capacity, hitems, List.length_cons]
  omega

/-- A push on a full stack is refused, and on no other. -/
theorem push_eq_error_iff {s : Stack α} {a : α} {e : Error} :
    s.push a = .error e ↔ s.room = 0 ∧ e = .stackOverflow := by
  obtain ⟨items, room⟩ := s
  cases room <;> simp [push, eq_comm]

/-- A pop from an empty stack is refused, and from no other. -/
theorem pop_eq_error_iff {s : Stack α} {e : Error} :
    s.pop = .error e ↔ s.items = [] ∧ e = .stackUnderflow := by
  obtain ⟨items, room⟩ := s
  cases items <;> simp [pop, eq_comm]

end Stack

end Threaded
