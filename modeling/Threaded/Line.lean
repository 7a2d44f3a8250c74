import Threaded.Token
import Threaded.Text.Utf8

/-!
# Lines that arrive as bytes

A line may come as raw bytes.  It is cut at the same separators as a text, and the lengths of
its tokens are checked before anything else, so a token that is too long wins over one that is
not UTF-8, wherever the two stand.  A token that is not UTF-8 can never resolve and is reported
as an unresolved symbol, its name being what a lossy reading makes of it.

The broken token is found from the length of the longest well-formed beginning of the whole
buffer: every token that ends within it is well-formed, and the next one is not.
-/

namespace Threaded.Line

/-- The bytes that end a token. -/
def isSeparatorByte (b : UInt8) : Bool :=
  b = 0x20 || b = 0x00

/-- Every byte takes one place. -/
def byteSize (_ : UInt8) : Nat := 1

/-- The runs of a buffer between separators. -/
def byteRuns (bytes : List UInt8) : List (Text.Run UInt8) :=
  Text.runs byteSize isSeparatorByte 0 bytes

/-- The error of the first run that is longer than `nameLen` bytes. -/
def tooLong? (nameLen : Nat) (runs : List (Text.Run UInt8)) : Option Error :=
  (runs.find? fun r => nameLen < r.width byteSize).map fun r =>
    .tokenTooLong (r.pos + nameLen)

/-- The error of the first run that is not UTF-8 in a buffer that is not. -/
def malformed (bytes : List UInt8) (runs : List (Text.Run UInt8)) : Error :=
  let valid := Text.Utf8.validLength bytes
  let index := (runs.takeWhile fun r => r.stop byteSize ≤ valid).length
  let broken := match runs[index]? with
    | some r => r.items
    | none => bytes.drop valid
  .unresolvedSymbol index (String.ofList (Text.Utf8.decodeLossy broken))

/-- A line of bytes as text. -/
def ofBytes (nameLen : Nat) (bytes : List UInt8) : Except Error String :=
  let runs := byteRuns bytes
  match tooLong? nameLen runs with
  | some e => .error e
  | none =>
    match Text.Utf8.decode? bytes with
    | some cs => .ok (String.ofList cs)
    | none => .error (malformed bytes runs)

end Threaded.Line
