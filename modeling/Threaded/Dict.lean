import Threaded.Entry

/-!
# The dictionary

The dictionary is a ledger: every entry ever registered has its index for good, and a new one
goes to the end.  Beside the ledger stands the list of the references that have a name, newest
first, so that a lookup finds the latest entry of a name while those who hold a reference to an
earlier one keep it.

The one change that reaches back is to the offset of a branch; it touches neither names nor
places.
-/

namespace Threaded

/-- A ledger of entries with an index of the named ones. -/
structure Dict where
  /-- All entries; the reference of an entry is its index. -/
  entries : Array Entry
  /-- The references of the named entries, newest first. -/
  named : List Ref
  deriving DecidableEq, Repr

namespace Dict

/-- A dictionary without entries. -/
def empty : Dict :=
  ⟨#[], []⟩

/-- How many entries the ledger holds. -/
def size (d : Dict) : Nat :=
  d.entries.size

/-- The entry of a reference. -/
def get? (d : Dict) (r : Ref) : Option Entry :=
  d.entries[r]?

/-- The entry of a reference, or the error that names the reference. -/
def entry (d : Dict) (r : Ref) : Except Error Entry :=
  match d.get? r with
  | some e => .ok e
  | none => .error (.invalidEntry r)

/-- The name of a reference. -/
def nameOf? (d : Dict) (r : Ref) : Option String :=
  (d.get? r).bind Entry.name?

/-- The newest entry of a name. -/
def lookup (d : Dict) (name : String) : Option Ref :=
  d.named.find? fun r => d.nameOf? r == some name

/-- The names that have been registered, newest first and with all repetitions. -/
def names (d : Dict) : List String :=
  d.named.filterMap d.nameOf?

/-- The dictionary with an entry more, which gets the reference `d.size`. -/
def register (d : Dict) (e : Entry) : Dict where
  entries := d.entries.push e
  named := if e.isNamed then d.size :: d.named else d.named

/-- The dictionary with the branch at `r` going by `offset`. -/
def setOffset (d : Dict) (r : Ref) (offset : Cell) : Dict :=
  { d with entries := d.entries.modify r (·.withOffset offset) }

/-- Sends the branch at `r` by `offset`.  A reference to nothing, or to an entry that is no branch,
is refused. -/
def patch (d : Dict) (r : Ref) (offset : Cell) : Except Error Dict :=
  match d.entry r with
  | .error e => .error e
  | .ok e => if e.offset?.isSome then .ok (d.setOffset r offset) else .error (.invalidEntry r)

/-- The dictionary with everything taken out of it. -/
def teardown (_ : Dict) : Dict :=
  empty

/-! ## What the changes do to the entries -/

/-- Registering an entry adds one. -/
@[simp] theorem size_register (d : Dict) (e : Entry) : (d.register e).size = d.size + 1 := by
  simp [register, size]

/-- Setting an offset adds none. -/
@[simp] theorem size_setOffset (d : Dict) (r : Ref) (offset : Cell) :
    (d.setOffset r offset).size = d.size := by
  simp [setOffset, size]

/-- The new entry is found under its reference. -/
@[simp] theorem get?_register_self (d : Dict) (e : Entry) : (d.register e).get? d.size = some e := by
  simp [register, get?, size]

/-- A registration leaves the entries before it alone. -/
theorem get?_register_of_lt {d : Dict} {e : Entry} {r : Ref} (h : r < d.size) :
    (d.register e).get? r = d.get? r := by
  have h' : r < d.entries.size := h
  simp [register, get?, Array.getElem?_push, Nat.ne_of_lt h']

/-- Setting an offset leaves every other entry alone. -/
theorem get?_setOffset_of_ne {d : Dict} {r s : Ref} {offset : Cell} (h : s ≠ r) :
    (d.setOffset r offset).get? s = d.get? s := by
  simp [setOffset, get?, Array.getElem?_modify, h.symm]

/-- The entry whose offset is set. -/
theorem get?_setOffset_self (d : Dict) (r : Ref) (offset : Cell) :
    (d.setOffset r offset).get? r = (d.get? r).map (·.withOffset offset) := by
  simp [setOffset, get?, Array.getElem?_modify]

/-- A reference is good exactly when it lies inside the ledger. -/
theorem entry_isOk_iff (d : Dict) (r : Ref) : (∃ e, d.entry r = .ok e) ↔ r < d.size := by
  unfold entry get? size
  constructor
  · rintro ⟨e, h⟩
    split at h
    · next e' he => exact (Array.getElem?_eq_some_iff.1 he).1
    · simp at h
  · intro h
    exact ⟨d.entries[r], by simp [Array.getElem?_eq_getElem h]⟩

end Dict

end Threaded
