import Threaded.Token

/-!
# Reading tokens one by one

A lexer stands somewhere in a line and hands out one token at a time.  A token that is too
long is an error of that call only: the lexer goes on behind it.  Once the line has no more
tokens every further call says so.
-/

namespace Threaded

/-- A place in a line from which tokens are read. -/
structure Lexer where
  /-- The longest token, in bytes. -/
  nameLen : Nat
  /-- The byte at which `rest` starts. -/
  pos : Nat
  /-- What is left of the line. -/
  rest : List Char
  deriving DecidableEq, Repr

namespace Lexer

/-- A lexer at the start of a line. -/
def ofLine (nameLen : Nat) (line : String) : Lexer :=
  ⟨nameLen, 0, line.toList⟩

/-- The encoded size of some characters. -/
def size (cs : List Char) : Nat :=
  Text.extent Char.utf8Size cs

/-- The next token, or `none` at the end of the line, and the lexer behind it. -/
def next (l : Lexer) : Except Error (Option Token) × Lexer :=
  let gap := l.rest.takeWhile isSeparator
  let rest := l.rest.dropWhile isSeparator
  let start := l.pos + size gap
  match rest.takeWhile (!isSeparator ·) with
  | [] => (.ok none, { l with pos := start, rest := [] })
  | run =>
    let behind := { l with pos := start + size run, rest := rest.dropWhile (!isSeparator ·) }
    ((Token.ofRun l.nameLen ⟨start, run⟩).map some, behind)

end Lexer

/-- Whether a text can be a name: it must be one token, whole and not too long. -/
def isName (nameLen : Nat) (name : String) : Bool :=
  match (Lexer.ofLine nameLen name).next.1 with
  | .ok (some t) => t.text == name
  | _ => false

end Threaded
