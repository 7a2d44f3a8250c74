import Threaded.Jump
import Threaded.Machine

/-!
# Assembling a line

Every token of a line takes exactly one slot of the word it becomes, so positions among the
tokens and positions in the word are the same thing, and branches written by hand can be
counted in tokens.

A word or a number becomes a reference.  IF registers a branch that is taken on zero and leaves
it **open**; ELSE sends the innermost open branch behind itself and opens a branch of its own
that is always taken; END sends the innermost open branch behind itself and stands for NOP.  An
ELSE may follow an ELSE, so an IF can have any number of them.

The open branches wait on a stack with a place for every token of the line.  It holds their slots
alone; the entry to send somewhere is looked up in the slot.

What an assembly registers stays in the dictionary, also when a later token fails.  It has no
name, so it cannot be found.
-/

namespace Threaded

/-- A line, assembled up to some token. -/
structure Assembly where
  dict : Dict
  /-- The slots so far. -/
  code : Array Ref
  /-- The slots of the open branches, innermost on top. -/
  flow : Stack Nat
  /-- An open branch stands in a slot that is filled. -/
  filled : ∀ slot ∈ flow.items, slot < code.size
  deriving DecidableEq, Repr

namespace Assembly

/-- Nothing assembled yet, of a line of `tokens` tokens. -/
def start (d : Dict) (tokens : Nat) : Assembly where
  dict := d
  code := #[]
  flow := Stack.empty tokens
  filled := by simp [Stack.empty]

/-- Puts a reference into the next slot. -/
def place (a : Assembly) (r : Ref) : Assembly where
  dict := a.dict
  code := a.code.push r
  flow := a.flow
  filled slot h := by
    have := a.filled slot h
    simp only [Array.size_push]
    omega

/-- Registers an entry and puts it into the next slot. -/
def emit (a : Assembly) (e : Entry) : Assembly :=
  { a.place a.dict.size with dict := a.dict.register e }

/-- Like `emit`, for a branch that is left open. -/
def emitOpen (a : Assembly) (e : Entry) : Except Error Assembly :=
  match h : a.flow.push a.code.size with
  | .error e => .error e
  | .ok flow =>
    .ok
      { dict := a.dict.register e
        code := a.code.push a.dict.size
        flow
        filled := by
          intro slot hslot
          rw [Stack.items_of_push h] at hslot
          simp only [Array.size_push]
          rcases List.mem_cons.1 hslot with rfl | hslot
          · omega
          · exact Nat.lt_succ_of_lt (a.filled slot hslot) }

/-- Sends the innermost open branch behind the next slot. -/
def close (a : Assembly) : Except Error Assembly :=
  match h : a.flow.pop with
  | .error _ => .error (.unmatchedElseOrEnd a.code.size)
  | .ok (slot, flow) =>
    have hitems := Stack.items_of_pop h
    have hslot : slot < a.code.size := a.filled slot (by simp [hitems])
    (a.dict.patch a.code[slot] (Jump.offsetTo slot a.code.size)).map fun dict =>
      { dict
        code := a.code
        flow
        filled := fun s hs => a.filled s (by simp [hitems, hs]) }

/-- Assembles a word: the newest entry of that name, or else a number. -/
def resolve (a : Assembly) (name : String) : Except Error Assembly :=
  match a.dict.lookup name with
  | some r => .ok (a.place r)
  | none =>
    match Text.Decimal.literal? name with
    | some n => .ok (a.emit (.literal n))
    | none => .error (.unresolvedSymbol a.code.size name)

/-- Assembles one more token.  If it fails nothing of it is kept. -/
def add (a : Assembly) : Symbol → Except Error Assembly
  | .branch offset => .ok (a.emit (.branch offset))
  | .zbranch offset => .ok (a.emit (.zbranch offset))
  | .ifMark => a.emitOpen (.zbranch 0)
  | .elseMark => a.close.bind (·.emitOpen (.branch 0))
  | .endMark => a.close.map (·.place nop)
  | .word name => a.resolve name

/-- Assembles tokens up to the first that fails. -/
def addAll (a : Assembly) : List Symbol → Except Error Unit × Assembly
  | [] => (.ok (), a)
  | s :: rest =>
    match a.add s with
    | .ok a => a.addAll rest
    | .error e => (.error e, a)

/-- The word of a whole line: no branch may be open, and every branch must land on it. -/
def finish (a : Assembly) : Except Error Word :=
  if a.flow.items.isEmpty then (Jump.check a.dict a.code).map fun () => { body := a.code }
  else .error (.danglingIf a.code.size)

end Assembly

/-- Assembles the tokens of a line; the dictionary comes back in every case. -/
def assemble (d : Dict) (symbols : List Symbol) : Except Error Word × Dict :=
  match (Assembly.start d symbols.length).addAll symbols with
  | (.ok (), a) => (a.finish, a.dict)
  | (.error e, a) => (.error e, a.dict)

namespace Machine

/-- Compiles a line into a word, `none` for a line without tokens.  Nothing is assembled if a
token is too long. -/
def compile (m : Machine) (line : String) : Except Error (Option Word) × Machine :=
  match tokenize m.limits.nameLen line with
  | .error e => (.error e, m)
  | .ok [] => (.ok none, m)
  | .ok tokens =>
    let (r, dict) := assemble m.dict (tokens.map Token.symbol)
    (r.map some, { m with dict })

/-- Compiles a line and binds a name to it.  The name is bound last, so the line still means
what the name meant before. -/
def define (m : Machine) (name source : String) : Except Error Ref × Machine :=
  if isName m.limits.nameLen name then
    match m.compile source with
    | (.error e, m) => (.error e, m)
    | (.ok w, m) =>
      let body := (w.map Word.body).getD #[]
      (.ok m.dict.size, m.register (.compound { name, body }))
  else (.error (.invalidName name), m)

end Machine

end Threaded
