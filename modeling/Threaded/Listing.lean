import Threaded.Assembly

/-!
# Listings

A listing shows a word slot by slot: the position, what kind of entry the slot refers to, and
its number or name.  A branch is shown with its signed offset and the position it aims at, which
is where a run goes on when it is taken.
-/

namespace Threaded

/-- Blanks in front of a text, up to a width. -/
def padLeft (width : Nat) (text : String) : String :=
  String.ofList (List.replicate (width - text.length) ' ') ++ text

namespace Entry

/-- The text of a branch in slot `ip`. -/
def listBranch (verb : String) (ip : Nat) (offset : Cell) : String :=
  verb ++ " " ++ offset.renderSigned ++ " -> " ++ (Jump.dest ip offset).render

/-- The text of an entry in slot `ip`. -/
def list (ip : Nat) : Entry → String
  | literal value => "lit     " ++ value.render
  | primitive name _ => "prim    " ++ name
  | compound w => "call    " ++ w.name
  | branch offset => listBranch "branch " ip offset
  | zbranch offset => listBranch "zbranch" ip offset

end Entry

namespace Dict

/-- The text of the entry that a slot at `ip` refers to. -/
def list (d : Dict) (ip : Nat) (r : Ref) : Except Error String :=
  (d.entry r).map (Entry.list ip)

/-- The lines of the slots from `ip` on. -/
def listFrom (d : Dict) : Nat → List Ref → Except Error String
  | _, [] => .ok ""
  | ip, r :: rs => do
    let text ← d.list ip r
    let below ← d.listFrom (ip + 1) rs
    return padLeft 4 ip.repr ++ " " ++ text ++ "\n" ++ below

/-- A word, a line for each slot. -/
def listWord (d : Dict) (w : Word) : Except Error String :=
  d.listFrom 0 w.body.toList

/-- What stands behind a name: the slots of a compound, or the one entry. -/
def see (d : Dict) (name : String) : Except Error String :=
  match d.lookup name with
  | none => .error (.unknownWord name)
  | some r =>
    match d.entry r with
    | .error e => .error e
    | .ok (.compound w) => d.listWord w
    | .ok e => .ok (e.list 0 ++ "\n")

/-- Each name that can be found, once, the newest first. -/
def words (d : Dict) : List String :=
  d.names.eraseDups

end Dict

end Threaded
