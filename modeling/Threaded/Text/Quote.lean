import Threaded.Text.Hidden

/-!
# Quoted text

A text shown to the reader of a message stands between double quotes, with everything made
visible that could not be seen on a terminal.  The quote and the backslash take a backslash;
tab, carriage return, line feed and NUL have the short forms `\t`, `\r`, `\n` and `\0`; every other
character that cannot be seen is written by its code point, in lower-case hexadecimal without
leading zeros between braces.
-/

namespace Threaded.Text.Quote

/-- How one character stands inside quotes. -/
def escape (c : Char) : List Char :=
  match c with
  | '"' => ['\\', '"']
  | '\\' => ['\\', '\\']
  | '\t' => ['\\', 't']
  | '\r' => ['\\', 'r']
  | '\n' => ['\\', 'n']
  | '\x00' => ['\\', '0']
  | c =>
    if isHidden c then ['\\', 'u', '\x7b'] ++ Nat.toDigits 16 c.toNat ++ ['\x7d'] else [c]

/-- A text between double quotes. -/
def quoted (s : String) : String :=
  String.ofList ('"' :: s.toList.flatMap escape ++ ['"'])

end Threaded.Text.Quote
