import Threaded.Primitive

/-!
# Words and entries

A **word** is a sequence of slots, each holding a reference to an entry of the dictionary; it
is what a line is assembled into.  An **entry** is what a reference stands for.  Only
primitives and compounds carry a name; literals and branches are made for one slot of one
word and nobody can ask for them.
-/

namespace Threaded

/-- A sequence of slots; the name is empty unless the word has been defined. -/
structure Word where
  name : String := ""
  body : Array Ref
  deriving DecidableEq, Repr

/-- What a reference stands for. -/
inductive Entry
  | primitive (name : String) (action : Primitive)
  | compound (word : Word)
  | literal (value : Cell)
  /-- Jumps by `offset`. -/
  | branch (offset : Cell)
  /-- Takes the top of the stack and jumps by `offset` if that is zero. -/
  | zbranch (offset : Cell)
  deriving DecidableEq, Repr

namespace Word

/-- The word as it is shown: its quoted name and its references. -/
def inspect (w : Word) : String :=
  "Word(" ++ Text.Quote.quoted w.name ++ ", ["
    ++ " ".intercalate (w.body.toList.map Nat.repr) ++ "])"

end Word

namespace Entry

/-- The name under which an entry can be found. -/
def name? : Entry → Option String
  | primitive name _ => some name
  | compound w => some w.name
  | literal _ | branch _ | zbranch _ => none

/-- Whether an entry can be found by name. -/
def isNamed (e : Entry) : Bool :=
  e.name?.isSome

/-- The offset of a branch of either kind. -/
def offset? : Entry → Option Cell
  | branch offset | zbranch offset => some offset
  | primitive _ _ | compound _ | literal _ => none

/-- A branch with a new offset; any other entry as it is. -/
def withOffset (e : Entry) (offset : Cell) : Entry :=
  match e with
  | branch _ => branch offset
  | zbranch _ => zbranch offset
  | e => e

/-- The entry as it is shown; what a primitive does cannot be, and is a question mark. -/
def inspect : Entry → String
  | primitive name _ => "Primitive(" ++ name ++ ", 0x?)"
  | compound w => "Compound(" ++ w.inspect ++ ")"
  | literal value => "Literal(" ++ value.render ++ ")"
  | branch offset => "Branch(" ++ offset.render ++ ")"
  | zbranch offset => "ZBranch(" ++ offset.render ++ ")"

/-- An offset does not change a name. -/
@[simp] theorem name?_withOffset (e : Entry) (offset : Cell) :
    (e.withOffset offset).name? = e.name? := by
  cases e <;> rfl

/-- An entry is a branch exactly when it is nameless and no literal. -/
theorem offset?_isSome_iff (e : Entry) :
    e.offset?.isSome ↔ e.name? = none ∧ ∀ n, e ≠ .literal n := by
  cases e <;> simp [offset?, name?]

end Entry

end Threaded
