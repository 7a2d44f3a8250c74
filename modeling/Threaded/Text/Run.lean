/-!
# Runs between separators

A sequence is cut at its separators; what lies between them are its runs.  A run is
**maximal**: it is never empty, holds no separator, and is not followed or preceded by
another item that could have belonged to it.  Positions are counted in whatever unit the
caller chooses through `width` (one per byte of a buffer, or the encoded size of each
character of a text), so the same cut serves text and raw bytes.
-/

namespace Threaded.Text

/-- What items take up together. -/
def extent {α : Type} (size : α → Nat) (items : List α) : Nat :=
  items.foldr (size · + ·) 0

/-- Nothing has no extent. -/
@[simp] theorem extent_nil {α : Type} (size : α → Nat) : extent size [] = 0 := rfl

/-- The extent of an item and of those behind it. -/
@[simp] theorem extent_cons {α : Type} (size : α → Nat) (a : α) (rest : List α) :
    extent size (a :: rest) = size a + extent size rest := rfl

/-- A maximal stretch of items without a separator, and where its first item starts. -/
structure Run (α : Type) where
  pos : Nat
  items : List α
  deriving DecidableEq, Repr

namespace Run

variable {α : Type}

/-- What the items of a run take up. -/
def width (size : α → Nat) (r : Run α) : Nat :=
  extent size r.items

/-- The position just behind a run. -/
def stop (size : α → Nat) (r : Run α) : Nat :=
  r.pos + r.width size

end Run

/-- The runs of a sequence that starts at position `pos`, from left to right.

The runs of the tail are found first.  An item that is no separator joins the first of them
if that one starts right behind it, and is a run of its own otherwise. -/
def runs {α : Type} (size : α → Nat) (isSeparator : α → Bool) : Nat → List α → List (Run α)
  | _, [] => []
  | pos, a :: rest =>
    match isSeparator a, runs size isSeparator (pos + size a) rest with
    | true, rs => rs
    | false, [] => [⟨pos, [a]⟩]
    | false, r :: rs =>
      if r.pos = pos + size a then ⟨pos, a :: r.items⟩ :: rs else ⟨pos, [a]⟩ :: r :: rs

/-- Nothing has no runs. -/
@[simp] theorem runs_nil {α : Type} (size : α → Nat) (isSeparator : α → Bool) (pos : Nat) :
    runs size isSeparator pos [] = [] := rfl

/-- A separator in front only moves the start. -/
theorem runs_cons_of_separator {α : Type} {size : α → Nat} {isSeparator : α → Bool} {a : α}
    (h : isSeparator a = true) (pos : Nat) (rest : List α) :
    runs size isSeparator pos (a :: rest) = runs size isSeparator (pos + size a) rest := by
  rw [runs, h]

end Threaded.Text
