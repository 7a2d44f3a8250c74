import Threaded.Dict

/-!
# Jumps

A branch in slot `ip` with offset `n` goes to the position `ip + n + 1`: one past the slot that
is `n` away.  The position behind the last slot is a good target too and ends the word.

The two additions are clamped.  A sum that leaves the range of cells ends at one of its ends,
and neither of these is a position of any word, so no offset can be folded into a word by
overflow.
-/

namespace Threaded.Jump

/-- The position that a branch at `ip` aims at. -/
def dest (ip : Nat) (offset : Cell) : Cell :=
  Cell.addClamped (Cell.addClamped (Cell.ofCount ip) offset) 1

/-- The position at which a word of `len` slots goes on after a branch at `ip`. -/
def target (ip : Nat) (offset : Cell) (len : Nat) : Except Error Nat :=
  let d := dest ip offset
  if 0 ≤ d.toInt ∧ d.toInt ≤ (len : Int) then .ok d.toInt.toNat
  else .error (.jumpOutOfBounds ip d)

/-- The offset with which a branch at `origin` goes to the position behind `mark`. -/
def offsetTo (origin mark : Nat) : Cell :=
  Int64.ofInt ((mark : Int) - origin)

/-- What is wrong with the reference `r` in slot `ip` of a word of `len` slots. -/
def checkSlot (d : Dict) (len ip : Nat) (r : Ref) : Except Error Unit :=
  match d.get? r with
  | none => .error (.invalidEntry r)
  | some e =>
    match e.offset? with
    | none => .ok ()
    | some offset => (target ip offset len).map fun _ => ()

/-- Checks the slots from `ip` on. -/
def checkFrom (d : Dict) (len : Nat) : Nat → List Ref → Except Error Unit
  | _, [] => .ok ()
  | ip, r :: rs =>
    match checkSlot d len ip r with
    | .error e => .error e
    | .ok () => checkFrom d len (ip + 1) rs

/-- Every reference must be good and every branch must land on a position of the word.  The
error is that of the first slot that is at fault. -/
def check (d : Dict) (body : Array Ref) : Except Error Unit :=
  checkFrom d body.size 0 body.toList

end Threaded.Jump
