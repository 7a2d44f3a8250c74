import Threaded.Text.Run

/-!
# Reading UTF-8

Bytes are read one at a time.  Between characters the reader holds nothing; inside one it
holds a `Pending` record: how many bytes the character still owes, the range the next byte
must lie in, and the bits gathered so far.  The first range is narrowed after the lead bytes
that could otherwise start an overlong form, a surrogate or a value past `U+10FFFF`, so a
byte is refused exactly where no well-formed character can go on.

Refused bytes are grouped: everything read of the broken character becomes **one** bad
piece, and the refused byte is then read again as a possible start.  These pieces are the
maximal ill-formed subparts of the standard, and a lossy reading writes one `U+FFFD` for
each of them.
-/

namespace Threaded.Text.Utf8

/-- A character that has begun and is not complete. -/
structure Pending where
  /-- Bytes still to come, at least one. -/
  owed : Nat
  /-- The least and the greatest value of the next byte. -/
  low : Nat
  high : Nat
  /-- The bits of the code point gathered so far. -/
  bits : Nat
  deriving DecidableEq, Repr

/-- What a byte from `0x80` on begins, if it can begin anything. -/
def lead (b : Nat) : Option Pending :=
  if 0xC2 ≤ b ∧ b ≤ 0xDF then some ⟨1, 0x80, 0xBF, b - 0xC0⟩
  else if b = 0xE0 then some ⟨2, 0xA0, 0xBF, 0⟩
  else if b = 0xED then some ⟨2, 0x80, 0x9F, 0xD⟩
  else if 0xE1 ≤ b ∧ b ≤ 0xEF then some ⟨2, 0x80, 0xBF, b - 0xE0⟩
  else if b = 0xF0 then some ⟨3, 0x90, 0xBF, 0⟩
  else if 0xF1 ≤ b ∧ b ≤ 0xF3 then some ⟨3, 0x80, 0xBF, b - 0xF0⟩
  else if b = 0xF4 then some ⟨3, 0x80, 0x8F, 4⟩
  else none

/-- A piece of a byte sequence: a character, or `none` for a maximal ill-formed subpart. -/
abbrev Piece := Option Char

/-- Reads a byte between characters. -/
def start (b : Nat) : List Piece × Option Pending :=
  if b < 0x80 then ([some (Char.ofNat b)], none)
  else match lead b with
    | some p => ([], some p)
    | none => ([none], none)

/-- Reads one byte: the pieces it completes, and what is pending after it. -/
def step : Option Pending → Nat → List Piece × Option Pending
  | none, b => start b
  | some p, b =>
    if p.low ≤ b ∧ b ≤ p.high then
      let bits := p.bits * 0x40 + (b - 0x80)
      if p.owed ≤ 1 then ([some (Char.ofNat bits)], none)
      else ([], some ⟨p.owed - 1, 0x80, 0xBF, bits⟩)
    else
      let (out, next) := start b
      (none :: out, next)

/-- The pieces that complete a pending character and all that follows it. -/
def piecesFrom : Option Pending → List UInt8 → List Piece
  | none, [] => []
  | some _, [] => [none]
  | p, b :: bs =>
    let (out, next) := step p b.toNat
    out ++ piecesFrom next bs

/-- A byte sequence in pieces, from left to right. -/
def pieces (bs : List UInt8) : List Piece :=
  piecesFrom none bs

/-- The characters of a well-formed sequence. -/
def decode? (bs : List UInt8) : Option (List Char) :=
  (pieces bs).mapM id

/-- The characters of any sequence, with one `U+FFFD` for each ill-formed subpart. -/
def decodeLossy (bs : List UInt8) : List Char :=
  (pieces bs).map (·.getD '\uFFFD')

/-- How many bytes come before the first ill-formed subpart. -/
def validLength (bs : List UInt8) : Nat :=
  extent (fun p => (p.map Char.utf8Size).getD 0) ((pieces bs).takeWhile Option.isSome)

/-- The bytes of a text. -/
def encode (cs : List Char) : List UInt8 :=
  cs.flatMap String.utf8EncodeChar

end Threaded.Text.Utf8
