import Threaded.Program

/-!
# The command line

Hands the arguments and the input to the program, and its output to the two streams.
-/

namespace Threaded

/-- More steps than any run takes. -/
def stepBound : Nat := UInt64.size / 4

/-- Everything a stream still holds. -/
partial def readAll (stream : IO.FS.Stream) (seen : ByteArray) : IO ByteArray := do
  let chunk ← stream.read 65536
  if chunk.isEmpty then return seen else readAll stream (seen ++ chunk)

end Threaded

open Threaded in
/-- Runs the program on the arguments and the standard streams. -/
def main (args : List String) : IO UInt32 := do
  let input ← if Program.readsInput args then readAll (← IO.getStdin) .empty else pure .empty
  match Program.run stepBound args input.toList with
  | none => return 1
  | some output =>
    IO.print output.transcript.stdout
    IO.eprint output.transcript.stderr
    return output.exit.toUInt32
